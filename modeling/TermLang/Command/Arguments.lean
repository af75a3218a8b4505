import TermLang.Command.Option
import TermLang.Dump.Format

/-!
# Reading the command line

Arguments are first told apart: options with their values, the subcommand, operands. Then they are
taken in from left to right until one asks for help, asks for the version or is wrong. Options that
every subcommand takes may also stand before it; given at both places, the later one holds.
-/

namespace TermLang

/-- Why a command line is refused. -/
inductive UsageError
  | unknownArgument (arg : String)
  | missingValue (option : CommandOption)
  | wrongValue (option : CommandOption) (value : String)
  | unexpectedValue (option : CommandOption) (value : String)
  | repeated (option : CommandOption)
  | conflict
  | emptyOperand
  | missingOperand
  | missingSubcommand
deriving DecidableEq, Repr

/-- The reason in words. -/
def UsageError.message : UsageError → String
  | .unknownArgument arg => s!"unexpected argument '{arg}' found"
  | .missingValue o => s!"a value is required for '--{o.long}' but none was supplied"
  | .wrongValue o value => s!"invalid value '{value}' for '--{o.long}'"
  | .unexpectedValue o value => s!"unexpected value '{value}' for '--{o.long}' found"
  | .repeated o => s!"the argument '--{o.long}' cannot be used multiple times"
  | .conflict => "the argument '--eval' cannot be used with a file"
  | .emptyOperand => "a value is required but an empty one was supplied"
  | .missingOperand => "a required argument was not provided"
  | .missingSubcommand => "a subcommand is required but none was provided"

/-- Where source text comes from. -/
inductive SourceInput
  | file (path : String)
  | inline (code : String)
deriving DecidableEq, Repr

/-- What is to be done. -/
inductive Command
  | tokens (path : String)
  | parse (input : SourceInput) (format : Option DumpFormat)
  | check (path : String)
  | fmt (path : String) (checkOnly : Bool)
  | explain (code : String)
  | version
deriving DecidableEq, Repr

/-- A command with the options that every command takes. -/
structure Invocation where
  command : Command
  verbose : Bool
  /-- The settings file that is named. -/
  settingsPath : Option String
deriving DecidableEq, Repr

/-- What a command line asks for. -/
inductive Request
  | run (invocation : Invocation)
  | help (topic : Option Subcommand)
  | version
deriving DecidableEq, Repr

namespace Arguments

/-! ## Telling arguments apart -/

/-- What an argument turns out to be. -/
inductive Item
  /-- An option, with an empty value if it takes none. -/
  | option (o : CommandOption) (value : String)
  | subcommand (c : Subcommand)
  | operand (text : String)
  | fault (e : UsageError)
deriving DecidableEq, Repr

/-- An argument that is taken for options: it begins with a dash and has more. -/
def isOptionLike (arg : String) : Bool := arg.startsWith "-" && arg ≠ "-"

/-- An option and the value in the same argument, if there is one. -/
inductive Piece
  | option (o : CommandOption) (value? : Option String)
  | fault (e : UsageError)

/-- The option in an argument that begins with two dashes; its value may follow an equals sign. -/
def longPiece (options : List CommandOption) (arg : String) : Piece :=
  let text := arg.toList.drop 2
  let name := String.ofList (text.takeWhile (· ≠ '='))
  let value? := ((text.dropWhile (· ≠ '=')).tail?).map String.ofList
  match options.find? fun o => o.long == name, value? with
  | none, _ => .fault (.unknownArgument arg)
  | some o, some value =>
    if o.takesValue then .option o value? else .fault (.unexpectedValue o value)
  | some o, none => .option o none

/-- The options in an argument after its single dash. An option that takes a value ends them; the
rest of the argument is its value, an equals sign before it left out. -/
def shortPieces (options : List CommandOption) : List Char → List Piece
  | [] => []
  | c :: cs =>
    match options.find? fun o => o.short? == some c with
    | none => [.fault (.unknownArgument (String.ofList ['-', c]))]
    | some o =>
      if o.takesValue then
        match cs with
        | [] => [.option o none]
        | '=' :: value => [.option o (some (String.ofList value))]
        | value => [.option o (some (String.ofList value))]
      else .option o none :: shortPieces options cs

/-- The options in an argument that is taken for options. -/
def pieces (options : List CommandOption) (arg : String) : List Piece :=
  if arg.startsWith "--" then [longPiece options arg] else shortPieces options (arg.toList.drop 1)

/-- The option at the end of some pieces that still needs a value. -/
def openOption? (ps : List Piece) : Option CommandOption :=
  match ps.getLast? with
  | some (.option o none) => if o.takesValue then some o else none
  | _ => none

/-- The item of a piece that needs no further value. -/
def Piece.item? : Piece → Option Item
  | .option o (some value) => some (.option o value)
  | .option o none => if o.takesValue then none else some (.option o "")
  | .fault e => some (.fault e)

/-- What the arguments are, from left to right. An option whose value is still missing takes the
next argument, unless that is taken for options itself. After two dashes everything is an operand,
and so is everything after the subcommand `help`. -/
def items : Option Subcommand → (missing : Option CommandOption) → List String → List Item
  | _, none, [] => []
  | _, some o, [] => [.fault (.missingValue o)]
  | topic, missing, arg :: rest =>
    let unmet := missing.toList.map fun o => Item.fault (.missingValue o)
    if arg = "--" then unmet ++ rest.map .operand
    else if isOptionLike arg then
      let ps := pieces (CommandOption.allowed topic) arg
      unmet ++ ps.filterMap Piece.item? ++ items topic (openOption? ps) rest
    else
      match missing, topic, Subcommand.ofName? arg with
      | some o, _, _ => .option o arg :: items topic none rest
      | none, none, some .help => .subcommand .help :: rest.map .operand
      | none, none, some c => .subcommand c :: items (some c) none rest
      | none, none, none => [.fault (.unknownArgument arg)]
      | none, some _, _ => .operand arg :: items topic none rest

@[simp] theorem items_dashes (topic : Option Subcommand) (rest : List String) :
    items topic none ("--" :: rest) = rest.map .operand := by
  simp [items]

/-! ## Taking arguments in -/

/-- What has been taken in so far. -/
structure Given where
  topic : Option Subcommand
  /-- The options since the subcommand, which may not be repeated. -/
  seen : List CommandOption
  operands : List String
  eval : Option String
  format : Option DumpFormat
  checkOnly : Bool
  verbose : Bool
  settingsPath : Option String

/-- Nothing has been taken in. -/
def Given.start : Given := ⟨none, [], [], none, none, false, false, none⟩

/-- How the arguments can end before the last one. -/
inductive Stop
  | refused (e : UsageError)
  | answered (r : Request)

/-- A path that is not empty. -/
def path (text : String) : Except Stop String :=
  if text.isEmpty then .error (.refused .emptyOperand) else .ok text

/-- Takes in an option. -/
def Given.option (g : Given) (o : CommandOption) (value : String) : Except Stop Given :=
  if o ∈ g.seen then .error (.refused (.repeated o))
  else
    let g := { g with seen := o :: g.seen }
    match o with
    | .eval => .ok { g with eval := some value }
    | .format =>
      match DumpFormat.ofText? value with
      | some f => .ok { g with format := some f }
      | none => .error (.refused (.wrongValue o value))
    | .check => .ok { g with checkOnly := true }
    | .verbose => .ok { g with verbose := true }
    | .config => do return { g with settingsPath := some (← path value) }
    | .help => .error (.answered (.help g.topic))
    | .version => .error (.answered .version)

/-- Takes in an operand. Every subcommand takes one at most; only a code may be empty. -/
def Given.operand (g : Given) (text : String) : Except Stop Given :=
  match g.topic, g.operands with
  | some .explain, [] => .ok { g with operands := [text] }
  | some .help, _ => .ok { g with operands := g.operands ++ [text] }
  | some .version, _ | none, _ | _, _ :: _ => .error (.refused (.unknownArgument text))
  | some _, [] => do return { g with operands := [← path text] }

/-- Takes in an item. -/
def Given.item (g : Given) : Item → Except Stop Given
  | .option o value => g.option o value
  | .subcommand c => .ok { g with topic := some c, seen := [] }
  | .operand text => g.operand text
  | .fault e => .error (.refused e)

/-- The subcommand that help is asked for. -/
def helpTopic : List String → Except UsageError Request
  | [] => .ok (.help none)
  | [name] =>
    match Subcommand.ofName? name with
    | some c => .ok (.help (some c))
    | none => .error (.unknownArgument name)
  | _ :: name :: _ => .error (.unknownArgument name)

/-- The operand that must be there. -/
def Given.onlyOperand (g : Given) : Except UsageError String :=
  match g.operands with
  | text :: _ => .ok text
  | [] => .error .missingOperand

/-- The source text to parse: a file or a code, and not both. -/
def Given.input (g : Given) : Except UsageError SourceInput :=
  match g.eval, g.operands with
  | some code, [] => .ok (.inline code)
  | none, file :: _ => .ok (.file file)
  | some _, _ :: _ => .error .conflict
  | none, [] => .error .missingOperand

/-- What is asked for once everything has been taken in. -/
def Given.request (g : Given) : Except UsageError Request := do
  let run (command : Command) : Request := .run ⟨command, g.verbose, g.settingsPath⟩
  match g.topic with
  | none => .error .missingSubcommand
  | some .tokens => return run (.tokens (← g.onlyOperand))
  | some .parse => return run (.parse (← g.input) g.format)
  | some .check => return run (.check (← g.onlyOperand))
  | some .fmt => return run (.fmt (← g.onlyOperand) g.checkOnly)
  | some .explain => return run (.explain (← g.onlyOperand))
  | some .version => return run .version
  | some .help => helpTopic g.operands

/-- What the arguments ask for. -/
def read (args : List String) : Except UsageError Request :=
  match (items none none args).foldlM Given.item .start with
  | .ok g => g.request
  | .error (.refused e) => .error e
  | .error (.answered r) => .ok r

end Arguments

end TermLang
