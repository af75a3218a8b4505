import TermLang.Token.Basic

/-!
# Terms

A program is a list of terms. A term is a head, or a chain of links folded onto one from left to
right: a selection, an application of one of three sorts, or an assignment. Annotations,
parameters, fields, arguments, bodies, branches and bindings are the parts of terms that are not
terms themselves.
-/

namespace TermLang

/-- What a spread operand is taken apart as: `*` a tuple, `**` a dictionary. -/
inductive Spread
  | tuple
  | dict
deriving DecidableEq, Repr

/-- Declarations by a list of parameters: `structof`, `enumof`, `traitof`, `kindof`. -/
inductive Signature
  | struct
  | enum
  | trait
  | kind
deriving DecidableEq, Repr

/-- Declarations by a list of fields: `struct`, `enum`, `kind`. -/
inductive Record
  | struct
  | enum
  | kind
deriving DecidableEq, Repr

/-- Applications to a list of arguments: implicit in square brackets, positional in round ones. -/
inductive Applier
  | implicit
  | positional
deriving DecidableEq, Repr

mutual

/-- A term. -/
inductive Term
  | ident (name : String)
  | literal (value : Literal)
  /-- `block { … }` -/
  | block (body : List Term)
  /-- `[ … ] => body` -/
  | generic (params : List Param) (body : Body)
  /-- `let …` -/
  | binding (binding : Binding)
  /-- `for name in source { … }` -/
  | forEach (name : String) (source : Term) (body : List Term)
  /-- `for { … }` -/
  | forever (body : List Term)
  /-- `for condition { … }` -/
  | forWhile (condition : Term) (body : List Term)
  /-- `structof name { … }` and its kin -/
  | signature (sort : Signature) (name : Option String) (params : List Param)
  /-- `struct name { … }` and its kin -/
  | record (sort : Record) (name : Option String) (fields : List Field)
  /-- `trait name { … }` -/
  | trait (name : Option String) (bindings : List Binding)
  /-- `( … ) -> result` -/
  | funType (params : List Term) (result : Term)
  /-- `( … ) -> result => body`, the result left out or not -/
  | function (params : List Param) (result : Option Term) (body : Body)
  /-- `case { … }` -/
  | cases (branches : List Branch)
  /-- `*operand` or `**operand` -/
  | spread (sort : Spread) (operand : Term)
  /-- `target.name` -/
  | select (target : Term) (name : String)
  /-- `target[ … ]` or `target( … )` -/
  | apply (sort : Applier) (target : Term) (args : List Arg)
  /-- `target{ … }` -/
  | applyNamed (target : Term) (fields : List Field)
  /-- `target = value` -/
  | assign (target : Term) (value : Term)

/-- An annotation `: type`, `: *type` or `: **type`. -/
inductive Anno
  | mk (sort : Option Spread) (type : Term)

/-- A parameter, annotated or not. -/
inductive Param
  | mk (name : String) (anno : Option Anno)

/-- A field or named argument: `name = value`, annotated or not, or `name` alone for itself. -/
inductive Field
  | given (name : String) (anno : Option Anno) (value : Term)
  | shorthand (name : String)

/-- An argument in square or round brackets. -/
inductive Arg
  | named (field : Field)
  | positional (term : Term)

/-- What stands after `=>`. -/
inductive Body
  | block (terms : List Term)
  | single (term : Term)

/-- A branch `when guard => body`. -/
inductive Branch
  | mk (guard : Term) (body : Body)

/-- What stands after `let`. -/
inductive Binding
  | init (name : String) (anno : Option Anno) (value : Term)
  | bare (name : String)

end

instance : Inhabited Term := ⟨.ident ""⟩

/-- The name that a field gives. -/
def Field.name : Field → String
  | .given name _ _ | .shorthand name => name

/-- The name that a binding binds. -/
def Binding.name : Binding → String
  | .init name _ _ | .bare name => name

/-- The type of an annotation. -/
def Anno.type : Anno → Term
  | .mk _ type => type

/-- The annotation of a parameter. -/
def Param.anno : Param → Option Anno
  | .mk _ anno => anno

/-- The keyword of a signature. -/
def Signature.keyword : Signature → Kind
  | .struct => .kwStructOf
  | .enum => .kwEnumOf
  | .trait => .kwTraitOf
  | .kind => .kwKindOf

/-- The keyword of a record. -/
def Record.keyword : Record → Kind
  | .struct => .kwStruct
  | .enum => .kwEnum
  | .kind => .kwKind

/-- The mark of a spread. -/
def Spread.mark : Spread → Kind
  | .tuple => .star
  | .dict => .starStar

/-- The bracket that opens the arguments of an application. -/
def Applier.opening : Applier → Kind
  | .implicit => .bracketOpen
  | .positional => .parenOpen

/-- The bracket that closes the arguments of an application. -/
def Applier.closing : Applier → Kind
  | .implicit => .bracketClose
  | .positional => .parenClose

/-- A program: its terms in order. -/
structure Program where
  terms : List Term
deriving Inhabited

namespace Program

/-- The number of terms at the top. -/
def size (p : Program) : Nat := p.terms.length

/-- The program has no term. -/
def isEmpty (p : Program) : Bool := p.terms.isEmpty

end Program

end TermLang
