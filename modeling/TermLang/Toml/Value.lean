/-!
# TOML values and documents

A document is a table. While it is read, a table remembers how it came about, since that decides
whether later statements may still add to it:

* a table with a header of its own takes no second header and no dotted keys from outside,
* a table implied by the header of a table inside it may still get its own header,
* a table implied by a dotted key takes further dotted keys but no header.
-/

namespace TermLang.Toml

/-- A value. Floats and dates are told from the others, but their values are not kept. -/
inductive Value
  | string (s : String)
  | integer (n : Int)
  | float
  | boolean (b : Bool)
  | dateTime
  | array (items : List Value)
  | table (entries : List (String × Value))

/-- How a table came about. -/
inductive Origin
  | header
  | innerHeader
  | dottedKey
deriving DecidableEq, Repr

/-- What a key stands for while a document is read. -/
inductive Node
  /-- A value, complete once it is read. -/
  | value (v : Value)
  | table (origin : Origin) (entries : List (String × Node))
  /-- The tables of an array of tables; the last takes further statements. -/
  | tables (earlier : List (List (String × Node))) (last : List (String × Node))

/-- The entries of a table that is being read, in the order of their first mention. -/
abbrev Entries : Type := List (String × Node)

/-- The entries with one key set anew, or added at the end. -/
def Entries.set (key : String) (node : Node) : Entries → Entries
  | [] => [(key, node)]
  | (k, n) :: rest => if k = key then (key, node) :: rest else (k, n) :: Entries.set key node rest

/-! ## Statements -/

/-- A line of a document. -/
inductive Statement
  /-- `key = value`, the key dotted or not: its last part and those before it. -/
  | assign (path : List String) (key : String) (value : Value)
  /-- `[path.key]` -/
  | header (path : List String) (key : String)
  /-- `[[path.key]]` -/
  | arrayHeader (path : List String) (key : String)

/-- Adds a value under a dotted key. Every table on the way must have come from dotted keys, or be
created now; a table from an inner header may only be passed through. -/
def assign (key : String) (value : Value) : (path : List String) → Entries → Option Entries
  | [], entries =>
    match entries.lookup key with
    | some _ => none
    | none => some (entries ++ [(key, .value value)])
  | part :: path, entries =>
    match entries.lookup part with
    | none => do
      let inner ← assign key value path []
      return Entries.set part (.table .dottedKey inner) entries
    | some (.table .dottedKey inner) => do
      let inner ← assign key value path inner
      return Entries.set part (.table .dottedKey inner) entries
    | some (.table .innerHeader inner) =>
      if path.isEmpty then none
      else do
        let inner ← assign key value path inner
        return Entries.set part (.table .innerHeader inner) entries
    | some (.tables earlier last) =>
      if path.isEmpty then none
      else do
        let last ← assign key value path last
        return Entries.set part (.tables earlier last) entries
    | some (.table .header _) | some (.value _) => none

/-- Changes the entries of the table that a path leads to, creating the tables on the way. -/
def within (change : Entries → Option Entries) : (path : List String) → Entries → Option Entries
  | [], entries => change entries
  | part :: path, entries =>
    match entries.lookup part with
    | none => do
      let inner ← within change path []
      return Entries.set part (.table .innerHeader inner) entries
    | some (.table origin inner) => do
      let inner ← within change path inner
      return Entries.set part (.table origin inner) entries
    | some (.tables earlier last) => do
      let last ← within change path last
      return Entries.set part (.tables earlier last) entries
    | some (.value _) => none

/-- Gives a table its header and the statements under it. -/
def openTable (key : String) (fill : Entries → Option Entries) (entries : Entries) :
    Option Entries :=
  match entries.lookup key with
  | none => do return Entries.set key (.table .header (← fill [])) entries
  | some (.table .innerHeader inner) => do
    return Entries.set key (.table .header (← fill inner)) entries
  | _ => none

/-- Adds a table to an array of tables, with the statements under its header. -/
def openArrayTable (key : String) (fill : Entries → Option Entries) (entries : Entries) :
    Option Entries :=
  match entries.lookup key with
  | none => do return Entries.set key (.tables [] (← fill [])) entries
  | some (.tables earlier last) => do
    return Entries.set key (.tables (earlier ++ [last]) (← fill [])) entries
  | _ => none

/-- The statements up to the next header, as assignments, and those from it on. -/
def splitAtHeader : List Statement → List (List String × String × Value) × List Statement
  | .assign path key value :: rest =>
    let (assignments, rest) := splitAtHeader rest
    ((path, key, value) :: assignments, rest)
  | rest => ([], rest)

/-- Adds values under dotted keys, one after another. -/
def assignAll (assignments : List (List String × String × Value)) (entries : Entries) :
    Option Entries :=
  assignments.foldlM (fun es (path, key, value) => assign key value path es) entries

/-- The table that some statements make up, at most so many of them headers. -/
def buildWithin : Nat → List Statement → Entries → Option Entries
  | 0, _, entries => some entries
  | bound + 1, statements, entries =>
    match statements with
    | [] => some entries
    | .assign path key value :: rest => do
      buildWithin bound rest (← assign key value path entries)
    | .header path key :: rest => do
      let (assignments, rest) := splitAtHeader rest
      buildWithin bound rest (← within (openTable key (assignAll assignments)) path entries)
    | .arrayHeader path key :: rest => do
      let (assignments, rest) := splitAtHeader rest
      buildWithin bound rest (← within (openArrayTable key (assignAll assignments)) path entries)

mutual

/-- The finished value of a node. -/
def Node.toValue : Node → Value
  | .value v => v
  | .table _ entries => .table (entriesToValues entries)
  | .tables earlier last =>
    .array (tablesToValues earlier ++ [.table (entriesToValues last)])

/-- The finished values of some entries. -/
def entriesToValues : List (String × Node) → List (String × Value)
  | [] => []
  | (key, n) :: rest => (key, n.toValue) :: entriesToValues rest

/-- The finished values of some tables. -/
def tablesToValues : List (List (String × Node)) → List Value
  | [] => []
  | entries :: rest => .table (entriesToValues entries) :: tablesToValues rest

end

/-- The table that some statements make up, unless two of them contradict each other. -/
def build (statements : List Statement) : Option Value :=
  (buildWithin statements.length statements []).map fun entries => .table (entriesToValues entries)

/-- The table that some assignments make up, unless two of them contradict each other. -/
def inlineTable (assignments : List (List String × String × Value)) : Option Value :=
  (assignAll assignments []).map fun entries => .table (entriesToValues entries)

end TermLang.Toml
