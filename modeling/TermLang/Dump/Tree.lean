import TermLang.Decimal.Double
import TermLang.Term.Basic

/-!
# Trees of labelled values

A dump shows a program as a tree of values: scalars, options, lists, and labelled alternatives and
records. Every dump format is a way to write such a tree.
-/

namespace TermLang

/-- A tree of labelled values. -/
inductive Tree
  /-- A name, which only the debug format sets apart from a string. -/
  | name (s : String)
  | string (s : String)
  | char (c : Char)
  | bool (b : Bool)
  | int (n : Int64)
  | decimal (x : Double)
  | absent
  | present (t : Tree)
  | list (items : List Tree)
  /-- An alternative that carries nothing. -/
  | unit (label : String)
  /-- An alternative that carries one value. -/
  | single (label : String) (payload : Tree)
  /-- An alternative that carries several values. -/
  | tuple (label : String) (items : List Tree)
  /-- An alternative that carries named values. -/
  | fields (label : String) (entries : List (String × Tree))
  /-- A record that is no alternative; only the debug format shows its label. -/
  | record (label : String) (entries : List (String × Tree))

namespace Tree

/-- A name that may be left out. -/
def nameOption : Option String → Tree
  | none => .absent
  | some s => .present (.name s)

/-- The tree of a literal. -/
def ofLiteral : Literal → Tree
  | .bool b => .single "Bool" (.bool b)
  | .int n => .single "Integer" (.int n)
  | .decimal x => .single "Decimal" (.decimal x)
  | .string s => .single "String" (.string s)
  | .char c => .single "Char" (.char c)

/-- The label of a signature. -/
def signatureLabel : Signature → String
  | .struct => "StructOf"
  | .enum => "EnumOf"
  | .trait => "TraitOf"
  | .kind => "KindOf"

/-- The label of a record. -/
def recordLabel : Record → String
  | .struct => "Struct"
  | .enum => "Enum"
  | .kind => "Kind"

/-- The label of a spread. -/
def spreadLabel : Spread → String
  | .tuple => "Tuple"
  | .dict => "Dict"

/-- The label of an application. -/
def applierLabel : Applier → String
  | .implicit => "ImplicitApply"
  | .positional => "PositionalApply"

/-- The label of an annotation. -/
def annoLabel : Option Spread → String
  | none => "Single"
  | some .tuple => "List"
  | some .dict => "Dict"

end Tree

mutual

/-- The tree of a term. -/
def Term.tree : Term → Tree
  | .ident name => .single "Ident" (.name name)
  | .literal value => .ofLiteral value
  | .block body => .single "Block" (.list (termsTree body))
  | .generic params body =>
    .fields "Generic" [("params", .list (paramsTree params)), ("body", body.tree)]
  | .binding b => .single "Let" b.tree
  | .forEach name source body =>
    .single "For" (.fields "ForEach"
      [("id", .name name), ("iter", source.tree), ("body", .list (termsTree body))])
  | .forever body => .single "For" (.fields "Loop" [("body", .list (termsTree body))])
  | .forWhile condition body =>
    .single "For" (.fields "While"
      [("cond", condition.tree), ("body", .list (termsTree body))])
  | .signature sort name params =>
    .fields (Tree.signatureLabel sort)
      [("name", .nameOption name), ("params", .list (paramsTree params))]
  | .record sort name entries =>
    .fields (Tree.recordLabel sort)
      [("name", .nameOption name), ("fields", .list (fieldsTree entries))]
  | .trait name bindings =>
    .fields "Trait" [("name", .nameOption name), ("lets", .list (bindingsTree bindings))]
  | .funType params result =>
    .fields "FunOf" [("params", .list (termsTree params)), ("ret", result.tree)]
  | .function params result body =>
    .fields "Fun"
      [("params", .list (paramsTree params)), ("ret", termOptionTree result), ("body", body.tree)]
  | .cases branches => .single "Case" (.list (branchesTree branches))
  | .spread sort operand => .tuple "Deref" [.unit (Tree.spreadLabel sort), operand.tree]
  | .select target name => .fields "Select" [("target", target.tree), ("name", .name name)]
  | .apply sort target args =>
    .fields (Tree.applierLabel sort)
      [("target", target.tree), ("args", .list (argsTree args))]
  | .applyNamed target entries =>
    .fields "NamedApply" [("target", target.tree), ("args", .list (fieldsTree entries))]
  | .assign target value =>
    .fields "Assign" [("target", target.tree), ("value", value.tree)]

/-- The trees of some terms. -/
def termsTree : List Term → List Tree
  | [] => []
  | t :: ts => t.tree :: termsTree ts

/-- The tree of a term that may be left out. -/
def termOptionTree : Option Term → Tree
  | none => .absent
  | some t => .present t.tree

/-- The tree of an annotation. -/
def Anno.tree : Anno → Tree
  | .mk sort type => .single (Tree.annoLabel sort) type.tree

/-- The tree of an annotation that may be left out. -/
def annoOptionTree : Option Anno → Tree
  | none => .absent
  | some a => .present a.tree

/-- The tree of a parameter. -/
def Param.tree : Param → Tree
  | .mk name anno => .record "Param" [("name", .name name), ("anno", annoOptionTree anno)]

/-- The trees of some parameters. -/
def paramsTree : List Param → List Tree
  | [] => []
  | p :: ps => p.tree :: paramsTree ps

/-- The tree of a field. -/
def Field.tree : Field → Tree
  | .given name anno value =>
    .fields "WithRename"
      [("name", .name name), ("anno", annoOptionTree anno), ("value", value.tree)]
  | .shorthand name => .fields "WithoutRename" [("name", .name name)]

/-- The trees of some fields. -/
def fieldsTree : List Field → List Tree
  | [] => []
  | f :: fs => f.tree :: fieldsTree fs

/-- The tree of an argument. -/
def Arg.tree : Arg → Tree
  | .named field => .single "Kw" field.tree
  | .positional term => .single "Pos" term.tree

/-- The trees of some arguments. -/
def argsTree : List Arg → List Tree
  | [] => []
  | a :: as => a.tree :: argsTree as

/-- The tree of a body. -/
def Body.tree : Body → Tree
  | .block terms => .single "Blocked" (.list (termsTree terms))
  | .single term => .single "Single" term.tree

/-- The tree of a branch. -/
def Branch.tree : Branch → Tree
  | .mk guard body => .record "When" [("cond", guard.tree), ("body", body.tree)]

/-- The trees of some branches. -/
def branchesTree : List Branch → List Tree
  | [] => []
  | b :: bs => b.tree :: branchesTree bs

/-- The tree of a binding. -/
def Binding.tree : Binding → Tree
  | .init name anno value =>
    .fields "Initialized"
      [("id", .name name), ("anno", annoOptionTree anno), ("value", value.tree)]
  | .bare name => .fields "Uninitialized" [("id", .name name)]

/-- The trees of some bindings. -/
def bindingsTree : List Binding → List Tree
  | [] => []
  | b :: bs => b.tree :: bindingsTree bs

end

/-- The tree of a program. -/
def Program.tree (p : Program) : Tree := .record "Program" [("terms", .list (termsTree p.terms))]

end TermLang
