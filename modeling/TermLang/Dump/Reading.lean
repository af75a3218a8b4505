import TermLang.Dump.Decode
import TermLang.Dump.JsonGrammar

/-!
# Readers of dumps

What reads a dump back is no part of this library: it is a parameter, and what is relied on are the
documented properties of `DumpReader.Documented`. A reader may have a limit on the arrays and objects
that are open inside one another, beyond which it refuses a text.
-/

namespace TermLang

/-- What reads programs back from text, and for that reads terms from the values in it. -/
structure DumpReader where
  /-- The most arrays and objects that may be open inside one another, if there is a limit. -/
  limit : Option Nat
  program : String → Option Program
  term : Json → Option Term

namespace DumpReader

/-- The value does not go beyond the limit. -/
def Admits (r : DumpReader) (j : Json) : Prop := ∀ limit ∈ r.limit, j.openings ≤ limit

/-- The reader does what is documented of it, as far as texts of programs go. Of other texts and
values nothing is assumed. -/
structure Documented (r : DumpReader) : Prop where
  /-- The terms of a program are read from the value that its text denotes: blanks do not matter, strings
  may have any escapes, and numbers are read back as they are written. -/
  within : ∀ (p : Program) (text : String), Json.Denotes text p.json → r.Admits p.json →
    r.program text = (p.json.listEntry "terms" r.term).map Program.mk
  /-- A text beyond the limit is refused. -/
  beyond : ∀ (p : Program) (text : String), Json.Denotes text p.json → ¬ r.Admits p.json →
    r.program text = none
  tagged : Decode.Tagged r.term

end DumpReader

end TermLang
