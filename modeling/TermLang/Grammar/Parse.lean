import TermLang.Grammar.Stream
import TermLang.Grammar.SyntaxError

/-!
# Parsers

A parser reads a stream from a cursor. Whether it succeeds or fails, its reply tells where the
cursor was left, and it notes each choice that it took back or settled by looking ahead. A parser
that fails leaves the cursor where the failure arose; only a speculation rewinds it.

A reply also tells how far the parser went on its way, and which terms it set out to read.
-/

namespace TermLang

/-- A choice that the parser settled after reading ahead. -/
inductive Note
  /-- A speculation that began at a token failed and was taken back. -/
  | rolledBack (pos : Nat) (found : Kind) (rule : Rule)
  /-- A curly bracket does not begin a named application. -/
  | braceLeft (pos : Nat)
  /-- The named application that a loop head closed with is the body of the loop. -/
  | bodyReclaimed (opening : Nat)
  /-- The guard of a branch is read again, as a function type if it can be. -/
  | guardReread (pos : Nat)
  /-- The list that closes at a token belongs to a function or to a function type. -/
  | listRead (close : Nat) (isFunction : Bool)
deriving DecidableEq, Repr

/-- The note in words. -/
def Note.text : Note → String
  | .rolledBack pos found rule => s!"rolled back to token {pos} after {found.text} in {rule.text}"
  | .braceLeft pos => s!"'\x7b' at token {pos} left to the enclosing rule"
  | .bodyReclaimed opening => s!"loop body reclaimed from named applier at token {opening}"
  | .guardReread pos => s!"when guard ending at token {pos} re-read preferring funof"
  | .listRead close isFunction =>
    let sort := if isFunction then "fun" else "funof"
    s!"parenthesised list closing at token {close} is a {sort}"

/-- The reading of a term, whether it succeeded or failed: the index where it began and the terms that
were read in it, in order. -/
inductive Call
  | mk (start : Nat) (inner : List Call)

/-- The index where the reading of a term began. -/
def Call.start : Call → Nat
  | .mk start _ => start

/-- What a parser answers: a value or an error, the cursor it left, and its notes in order; the highest
index and the most open levels that it came to; and the terms that it read or failed to read. -/
structure Reply (α : Type) where
  result : Except SyntaxError α
  cursor : Cursor
  notes : List Note := []
  peak : Cursor := cursor
  calls : List Call := []

/-- A parser for values of a type. -/
def Parse (α : Type) : Type := Stream → Cursor → Reply α

namespace Parse

/-- A parser that succeeds and reads nothing. -/
protected def pure {α : Type} (a : α) : Parse α := fun _ c => { result := .ok a, cursor := c }

/-- One parser after another, the second depending on the value of the first. -/
protected def bind {α β : Type} (p : Parse α) (f : α → Parse β) : Parse β := fun s c =>
  let first := p s c
  match first.result with
  | .ok a =>
    let second := f a s first.cursor
    { result := second.result
      cursor := second.cursor
      notes := first.notes ++ second.notes
      peak := first.peak.max second.peak
      calls := first.calls ++ second.calls }
  | .error e => { first with result := .error e }

instance : Monad Parse where
  pure := Parse.pure
  bind := Parse.bind

/-! ## Looking -/

/-- The cursor. -/
def cursor : Parse Cursor := fun _ c => { result := .ok c, cursor := c }

/-- The current token; past the row there is none. -/
def current : Parse (Option Token) := fun s c => { result := .ok s.tokens[c.pos]?, cursor := c }

/-- The kind of the token so many places after the current one. -/
def nthKind (n : Nat) : Parse Kind := fun s c => { result := .ok (s.kindAt (c.pos + n)), cursor := c }

/-- The kind of the current token. -/
def kind : Parse Kind := nthKind 0

/-- The kind of the token at an index. -/
def kindAt (i : Nat) : Parse Kind := fun s c => { result := .ok (s.kindAt i), cursor := c }

/-- Whether the current token has a kind. -/
def at? (k : Kind) : Parse Bool := return (← kind) = k

/-- Whether no token is left. -/
def atEnd : Parse Bool := at? .eof

/-- The most tokens that can be left, the end of the input counted. -/
def remaining : Parse Nat := fun s c => { result := .ok (s.remaining c.pos), cursor := c }

/-- The index of the token that closes the bracket at the cursor. -/
def matchingClose? : Parse (Option Nat) := fun s c =>
  { result := .ok (s.matchingClose? c.pos), cursor := c }

/-- The index of the token that opens the bracket closed just before the cursor. -/
def openingBefore? : Parse (Option Nat) := fun s c =>
  match c.pos with
  | 0 => { result := .ok none, cursor := c }
  | last + 1 => { result := .ok (s.matchingOpen? last), cursor := c }

/-! ## Moving -/

/-- The move from one cursor to another. -/
abbrev moved (c c' : Cursor) : Reply Unit := { result := .ok (), cursor := c', peak := c.max c' }

/-- Moves past the current token, unless it is the end of the input. -/
def bump : Parse Unit := fun s c =>
  moved c (if s.kindAt c.pos = .eof then c else { c with pos := c.pos + 1 })

/-- Moves past the current token if it has a kind, and tells whether it did. -/
def skip (k : Kind) : Parse Bool := do
  if ← at? k then
    bump
    return true
  else return false

/-- Moves to an index, at most to the end of the row. -/
def seek (i : Nat) : Parse Unit := fun s c => moved c { c with pos := min i s.tokens.size }

/-- Takes the cursor back to where it was. -/
def restore (saved : Cursor) : Parse Unit := fun _ c => moved c saved

/-- Notes a choice. -/
def note (n : Note) : Parse Unit := fun _ c => { result := .ok (), cursor := c, notes := [n] }

/-! ## Failing -/

/-- An error at the cursor. Past the row it stands where the last token ends. -/
def errorAt (s : Stream) (c : Cursor) (rule : Rule) (fault : SyntaxFault) : SyntaxError :=
  let (position, lexeme) :=
    match s.tokens[c.pos]? with
    | some t => (t.span.start, t.lexeme)
    | none =>
      match s.tokens.back? with
      | some t => (t.span.stop, "")
      | none => (Position.start, "")
  ⟨fault, rule, position, s.kindAt c.pos, lexeme⟩

/-- The error of meeting the current token where a rule accepts only the given kinds. -/
def unexpected (rule : Rule) (expected : KindSet) : Parse SyntaxError := fun s c =>
  { result := .ok (errorAt s c rule (.unexpected expected)), cursor := c }

/-- Fails at the current token. -/
def reject {α : Type} (rule : Rule) (expected : List Kind) : Parse α := fun s c =>
  { result := .error (errorAt s c rule (.unexpected (.ofList expected))), cursor := c }

/-- Moves past a token of a kind and answers it, or fails. -/
def expect (k : Kind) (rule : Rule) : Parse Token := do
  match ← current with
  | some t =>
    if t.kind = k then
      bump
      return t
    else reject rule [k]
  | none => reject rule [k]

/-- Moves past an identifier and answers its name, or fails. -/
def expectIdent (rule : Rule) : Parse String := return (← expect .ident rule).lexeme

/-! ## Nesting and speculation -/

/-- Opens a nesting level, or fails if no more are allowed. -/
def descend : Parse Unit := fun s c =>
  if s.maxDepth ≤ c.depth then
    { result := .error (errorAt s c .term (.tooDeep s.maxDepth)), cursor := c }
  else moved c { c with depth := c.depth + 1 }

/-- Closes a nesting level. -/
def ascend : Parse Unit := fun _ c => moved c { c with depth := c.depth - 1 }

/-- Tries a parser, and takes the cursor back if it fails. Hitting the nesting limit is no reason
to try something else, so that failure stays. -/
def speculate {α : Type} (p : Parse α) : Parse (Option α) := fun s c =>
  let reply := p s c
  match reply.result with
  | .ok a => { reply with result := .ok (some a) }
  | .error e =>
    if e.isTooDeep then { reply with result := .error e }
    else
      { reply with
        result := .ok none
        cursor := c
        notes := reply.notes ++ [.rolledBack c.pos e.found e.rule] }

/-- Tells that the parser reads a term. -/
def called {α : Type} (p : Parse α) : Parse α := fun s c =>
  let reply := p s c
  { reply with calls := [.mk c.pos reply.calls] }

/-! ## Lists -/

/-- At most `bound` items, then the closing kind. An item begins with a kind that `begins` admits;
any other token is rejected. -/
def itemsWithin {α : Type} (close : Kind) (begins : Kind → Bool) (rule : Rule)
    (expected : List Kind) (item : Parse α) : Nat → Parse (List α)
  | 0 => reject rule expected
  | bound + 1 => do
    if ← skip close then return []
    else if begins (← kind) then
      let first ← item
      let others ← itemsWithin close begins rule expected item bound
      return first :: others
    else reject rule expected

/-- Items up to the closing kind. Every item moves the cursor forward, so there are no more of them
than tokens. -/
def itemsUntil {α : Type} (close : Kind) (begins : Kind → Bool) (rule : Rule)
    (expected : List Kind) (item : Parse α) : Parse (List α) := do
  itemsWithin close begins rule expected item (← remaining)

end Parse

end TermLang
