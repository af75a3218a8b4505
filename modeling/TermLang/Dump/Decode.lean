import TermLang.Dump.Json

/-!
# Programs from JSON values

The reading of the JSON form of a program. Entries are found by name, in any order, and an optional
entry may be left out or null. As in the grammar, the parts of terms are read by readers that are
given the reader of terms.
-/

namespace TermLang

namespace Json

/-- The entry of an object with a given name. -/
def entry? (name : String) : Json → Option Json
  | .object entries => entries.lookup name
  | _ => none

/-- The only entry of an object: the label of an alternative and what it carries. -/
def alternative? : Json → Option (String × Json)
  | .object [(label, payload)] => some (label, payload)
  | _ => none

/-- The text of a string. -/
def string? : Json → Option String
  | .string s => some s
  | _ => none

/-- The truth value of a boolean. -/
def bool? : Json → Option Bool
  | .bool b => some b
  | _ => none

/-- The items of an array. -/
def items? : Json → Option (List Json)
  | .array items => some items
  | _ => none

/-- The integer of a number in the signed 64-bit range. -/
def int64? : Json → Option Int64
  | .int n => Text.int64? n
  | _ => none

/-- The double of a number. -/
def double? : Json → Option Double
  | .decimal x => some x
  | .int n => Double.ofRatio? (n < 0) n.natAbs 1
  | _ => none

/-- The only character of a string. -/
def char? (j : Json) : Option Char := do
  match (← j.string?).toList with
  | [c] => some c
  | _ => none

/-- A named entry read by a reader. -/
def entry {α : Type} (name : String) (read : Json → Option α) (j : Json) : Option α :=
  (j.entry? name).bind read

/-- A named entry that may be missing or null. -/
def optionalEntry {α : Type} (name : String) (read : Json → Option α) (j : Json) :
    Option (Option α) :=
  match j.entry? name with
  | none | some .null => some none
  | some value => (read value).map some

/-- A named entry that is an array. -/
def listEntry {α : Type} (name : String) (read : Json → Option α) (j : Json) : Option (List α) :=
  j.entry name fun value => do (← value.items?).mapM read

mutual

/-- The values nested in one another, this one counted. -/
def depth : Json → Nat
  | .array items => 1 + itemsDepth items
  | .object entries => 1 + entriesDepth entries
  | _ => 1

/-- The depth of the deepest item. -/
def itemsDepth : List Json → Nat
  | [] => 0
  | j :: js => max j.depth (itemsDepth js)

/-- The depth of the deepest entry. -/
def entriesDepth : List (String × Json) → Nat
  | [] => 0
  | (_, j) :: es => max j.depth (entriesDepth es)

end

end Json

namespace Decode

/-- A reader of values of a type from a JSON value. -/
abbrev Decoder (α : Type) : Type := Json → Option α

/-- A literal with the label of its sort. -/
def literalOf (label : String) (payload : Json) : Option Literal :=
  match label with
  | "Bool" => payload.bool?.map .bool
  | "Integer" => payload.int64?.map .int
  | "Decimal" => payload.double?.map .decimal
  | "String" => payload.string?.map .string
  | "Char" => payload.char?.map .char
  | _ => none

/-- A spread by its label. -/
def spreadOf (j : Json) : Option Spread := do
  match ← j.string? with
  | "Tuple" => some .tuple
  | "Dict" => some .dict
  | _ => none

/-- An annotation. -/
def anno (term : Decoder Term) : Decoder Anno := fun j => do
  let (label, payload) ← j.alternative?
  match label with
  | "Single" => return .mk none (← term payload)
  | "List" => return .mk (some .tuple) (← term payload)
  | "Dict" => return .mk (some .dict) (← term payload)
  | _ => none

/-- A parameter. -/
def param (term : Decoder Term) : Decoder Param := fun j => do
  return .mk (← j.entry "name" Json.string?) (← j.optionalEntry "anno" (anno term))

/-- A field. -/
def field (term : Decoder Term) : Decoder Field := fun j => do
  let (label, payload) ← j.alternative?
  let name ← payload.entry "name" Json.string?
  match label with
  | "WithRename" =>
    return .given name (← payload.optionalEntry "anno" (anno term)) (← payload.entry "value" term)
  | "WithoutRename" => return .shorthand name
  | _ => none

/-- An argument. -/
def arg (term : Decoder Term) : Decoder Arg := fun j => do
  let (label, payload) ← j.alternative?
  match label with
  | "Kw" => return .named (← field term payload)
  | "Pos" => return .positional (← term payload)
  | _ => none

/-- A body. -/
def body (term : Decoder Term) : Decoder Body := fun j => do
  let (label, payload) ← j.alternative?
  match label with
  | "Blocked" => return .block (← (← payload.items?).mapM term)
  | "Single" => return .single (← term payload)
  | _ => none

/-- A branch. -/
def branch (term : Decoder Term) : Decoder Branch := fun j => do
  return .mk (← j.entry "cond" term) (← j.entry "body" (body term))

/-- A binding. -/
def binding (term : Decoder Term) : Decoder Binding := fun j => do
  let (label, payload) ← j.alternative?
  let name ← payload.entry "id" Json.string?
  match label with
  | "Initialized" =>
    return .init name (← payload.optionalEntry "anno" (anno term)) (← payload.entry "value" term)
  | "Uninitialized" => return .bare name
  | _ => none

/-- A loop. -/
def loop (term : Decoder Term) : Decoder Term := fun j => do
  let (label, payload) ← j.alternative?
  let body ← payload.listEntry "body" term
  match label with
  | "ForEach" =>
    return .forEach (← payload.entry "id" Json.string?) (← payload.entry "iter" term) body
  | "Loop" => return .forever body
  | "While" => return .forWhile (← payload.entry "cond" term) body
  | _ => none

/-- A declaration by parameters. -/
def signature (term : Decoder Term) (sort : Signature) : Decoder Term := fun j => do
  return .signature sort (← j.optionalEntry "name" Json.string?)
    (← j.listEntry "params" (param term))

/-- A declaration by fields. -/
def record (term : Decoder Term) (sort : Record) : Decoder Term := fun j => do
  return .record sort (← j.optionalEntry "name" Json.string?) (← j.listEntry "fields" (field term))

/-- An application to a list of arguments. -/
def apply (term : Decoder Term) (sort : Applier) : Decoder Term := fun j => do
  return .apply sort (← j.entry "target" term) (← j.listEntry "args" (arg term))

/-- A spread operand with its sort in front. -/
def spread (term : Decoder Term) : Decoder Term := fun j => do
  match ← j.items? with
  | [sort, operand] => return .spread (← spreadOf sort) (← term operand)
  | _ => none

/-- A term whose parts are read by a given reader. -/
def termOf (term : Decoder Term) : Decoder Term := fun j => do
  let (label, payload) ← j.alternative?
  match label with
  | "Ident" => return .ident (← payload.string?)
  | "Block" => return .block (← (← payload.items?).mapM term)
  | "Generic" =>
    return .generic (← payload.listEntry "params" (param term)) (← payload.entry "body" (body term))
  | "Let" => return .binding (← binding term payload)
  | "For" => loop term payload
  | "StructOf" => signature term .struct payload
  | "EnumOf" => signature term .enum payload
  | "TraitOf" => signature term .trait payload
  | "KindOf" => signature term .kind payload
  | "Struct" => record term .struct payload
  | "Enum" => record term .enum payload
  | "Kind" => record term .kind payload
  | "Trait" =>
    return .trait (← payload.optionalEntry "name" Json.string?)
      (← payload.listEntry "lets" (binding term))
  | "FunOf" => return .funType (← payload.listEntry "params" term) (← payload.entry "ret" term)
  | "Fun" =>
    return .function (← payload.listEntry "params" (param term))
      (← payload.optionalEntry "ret" term) (← payload.entry "body" (body term))
  | "Case" => return .cases (← (← payload.items?).mapM (branch term))
  | "Deref" => spread term payload
  | "Select" =>
    return .select (← payload.entry "target" term) (← payload.entry "name" Json.string?)
  | "ImplicitApply" => apply term .implicit payload
  | "PositionalApply" => apply term .positional payload
  | "NamedApply" =>
    return .applyNamed (← payload.entry "target" term) (← payload.listEntry "args" (field term))
  | "Assign" => return .assign (← payload.entry "target" term) (← payload.entry "value" term)
  | _ => (literalOf label payload).map .literal

/-- A term with at most so many terms open inside one another. -/
def termWithin : Nat → Decoder Term
  | 0 => fun _ => none
  | levels + 1 => termOf (termWithin levels)

/-- A reader of terms reads the value of a term by its label and the names of its entries, and is asked
again for every term inside it. -/
def Tagged (term : Decoder Term) : Prop :=
  ∀ t u : Term, termOf term t.json = some u → term t.json = some u

end Decode

/-- The term that a JSON value describes. A term inside another is a smaller value. -/
def Term.ofJson? (j : Json) : Option Term := Decode.termWithin j.depth j

/-- The program that a JSON value describes. -/
def Program.ofJson? (j : Json) : Option Program := do
  return ⟨← j.listEntry "terms" Term.ofJson?⟩

end TermLang
