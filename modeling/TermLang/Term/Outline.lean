import TermLang.Layout.Printer

/-!
# Outlines

The outline of a term lists what its declaration or application is made of: the names it gives, or
the types of its parameters.
-/

namespace TermLang

/-- The name of a named argument, or the text of a positional one. -/
def Arg.outline : Arg → String
  | .named field => field.name
  | .positional term => term.text

/-- The text of the annotated type of a parameter, if it is annotated. -/
def Param.outline (p : Param) : Option String := p.anno.map (·.type.text)

/-- The outline of a term, if it is of a sort that has one. Only an unannotated parameter leaves a
gap. -/
def Term.outline? : Term → Option (List (Option String))
  | .binding b => some [some b.name]
  | .trait _ bindings => some (bindings.map fun b => some b.name)
  | .record _ _ fields | .applyNamed _ fields => some (fields.map fun f => some f.name)
  | .apply _ _ args => some (args.map fun a => some a.outline)
  | .function params _ _ | .generic params _ | .signature .struct _ params =>
    some (params.map Param.outline)
  | _ => none

end TermLang
