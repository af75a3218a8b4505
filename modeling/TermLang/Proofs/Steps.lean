import TermLang.Proofs.OrderlyTerms
import TermLang.Proofs.TermRuns

/-!
# Steps of a parser

A parser is driven by steps: bumping, skipping, expecting and reading a term, in any order, each of which
may fail and leaves the cursor for the next one. Over any run of steps the cursor stays in the row and
never goes back, and no more levels are ever open than the limit allows. A term that is read closes the
levels that it opened; one that fails may leave some of them open, but closes none that was open before.
-/

namespace TermLang

open Parse

/-- A step that whoever drives the parser may take. -/
inductive Step
  | bump
  | skip (k : Kind)
  | expect (k : Kind) (rule : Rule)
  | expectIdent (rule : Rule)
  | term (r : Restrictions)

namespace Step

/-- Takes a step and tells whether it succeeds; skipping also succeeds only where it moves past a token of
the kind. -/
def parse : Step → Parse Bool
  | .bump => do Parse.bump; return true
  | .skip k => Parse.skip k
  | .expect k rule => do let _ ← Parse.expect k rule; return true
  | .expectIdent rule => do let _ ← Parse.expectIdent rule; return true
  | .term r => do let _ ← Grammar.term r; return true

/-- The step succeeds at a cursor. -/
def Succeeds (step : Step) (s : Stream) (c : Cursor) : Prop := (step.parse s c).result = .ok true

/-- Where the steps lead, each taken from where the one before left the cursor. -/
def after (s : Stream) (c : Cursor) : List Step → Cursor
  | [] => c
  | step :: steps => after s (step.parse s c).cursor steps

/-- What a step does to the cursor: it stays within the row and the limit and moves forward if at all; a
term that is read is passed, with the same levels open; a term that fails closes no level that was open;
any other step that does not succeed changes nothing. -/
structure Fair (step : Step) (s : Stream) (c : Cursor) : Prop where
  peak_pos : (step.parse s c).peak.pos ≤ s.tokens.size
  peak_depth : (step.parse s c).peak.depth ≤ s.maxDepth
  pos_le : (step.parse s c).cursor.pos ≤ s.tokens.size
  depth_le : (step.parse s c).cursor.depth ≤ s.maxDepth
  pos_mono : c.pos ≤ (step.parse s c).cursor.pos
  term_succeeds : ∀ r, step = .term r → step.Succeeds s c →
    (step.parse s c).cursor.depth = c.depth ∧ c.pos < (step.parse s c).cursor.pos
  term_fails : ∀ r, step = .term r → ¬ step.Succeeds s c → c.depth ≤ (step.parse s c).cursor.depth
  untouched : (∀ r, step ≠ .term r) → ¬ step.Succeeds s c → (step.parse s c).cursor = c

variable {s : Stream} {low c : Cursor}

theorem orderly_parse (step : Step) (h : s.Above low c) : step.parse.Orderly s low 0 c := by
  have succeeds : ∀ {α : Type} {p : Parse α}, p.Orderly s low 0 c →
      (p >>= fun _ => pure true).Orderly s low 0 c := fun hp =>
    orderly_bind hp fun _ _ _ hx => orderly_pure true hx
  cases step with
  | bump => exact succeeds (orderly_bump h)
  | skip k => exact orderly_skip k h
  | expect k rule => exact succeeds (orderly_expect k rule h)
  | expectIdent rule => exact succeeds (orderly_expectIdent rule h)
  | term r =>
    have hready : s.Ready low 0 0 c := { h with first_le := Nat.zero_le _ }
    exact succeeds ((Grammar.orderlyTerms_term s).keeps low 0 r c hready)

/-- A sequence whose first part fails stays where that part left the cursor. -/
theorem cursor_of_error {α β : Type} {p : Parse α} {f : α → Parse β} {e : SyntaxError}
    (h : (p s c).result = .error e) : ((p >>= f) s c).cursor = (p s c).cursor := by
  show (Parse.bind p f s c).cursor = _
  simp only [Parse.bind, h]

theorem cursor_of_expect {k : Kind} {rule : Rule} {e : SyntaxError}
    (h : (Parse.expect k rule s c).result = .error e) : (Parse.expect k rule s c).cursor = c := by
  have hlook : (Parse.expect k rule s c).result = _ ∧ (Parse.expect k rule s c).cursor = _ :=
    bind_of_ok (runs_current.2 ⟨rfl, rfl⟩).1
  cases ht : s.tokens[c.pos]? with
  | none =>
    rw [ht] at hlook
    exact hlook.2
  | some t =>
    rw [ht] at hlook
    dsimp only at hlook
    by_cases hk : t.kind = k
    · rw [if_pos hk] at hlook
      cases h.symm.trans hlook.1
    · rw [if_neg hk] at hlook
      exact hlook.2

/-- A step other than the reading of a term changes nothing if it does not succeed. -/
theorem cursor_of_fails {step : Step} (hterm : ∀ r, step ≠ .term r) (h : ¬ step.Succeeds s c) :
    (step.parse s c).cursor = c := by
  have expected : ∀ {α : Type} {p : Parse α}, (∀ e, (p s c).result = .error e → (p s c).cursor = c) →
      ((p >>= fun _ => pure true) s c).result ≠ .ok true →
        ((p >>= fun _ => pure true) s c).cursor = c := by
    intro α p hp hne
    cases hr : (p s c).result with
    | ok a => exact absurd (bind_of_ok hr).1 hne
    | error e => exact (cursor_of_error hr).trans (hp e hr)
  cases step with
  | bump => exact absurd rfl h
  | skip k =>
    have hlook : (Parse.skip k s c).result = _ ∧ (Parse.skip k s c).cursor = _ :=
      bind_of_ok (runs_at?.2 ⟨rfl, rfl⟩).1
    by_cases hk : s.kindAt c.pos = k
    · rw [decide_eq_true hk] at hlook
      exact absurd hlook.1 h
    · rw [decide_eq_false hk] at hlook
      exact hlook.2
  | expect k rule => exact expected (fun _ he => cursor_of_expect he) h
  | expectIdent rule =>
    refine expected (fun e he => ?_) h
    cases hr : (Parse.expect .ident rule s c).result with
    | ok t => cases he.symm.trans (bind_of_ok hr).1
    | error e => exact (cursor_of_error hr).trans (cursor_of_expect hr)
  | term r => exact absurd rfl (hterm r)

theorem fair (step : Step) (hpos : c.pos ≤ s.tokens.size) (hdepth : c.depth ≤ s.maxDepth) :
    step.Fair s c := by
  have horderly := step.orderly_parse (Stream.Above.refl hpos hdepth)
  refine ⟨horderly.peak_pos, horderly.peak_depth, horderly.cursor.pos_le, horderly.cursor.depth_le,
    horderly.cursor.pos_ge, ?_, fun _ _ _ => horderly.cursor.depth_ge, cursor_of_fails⟩
  rintro r rfl hok
  have hrun : (Step.term r).parse.Runs s c true ((Step.term r).parse s c).cursor := ⟨hok, rfl⟩
  simp only [parse, runs_bind, runs_pure] at hrun
  obtain ⟨t, x, ht, -, hx⟩ := hrun
  rw [parse, ← hx]
  exact ⟨(Grammar.term_reads r ht).depth_eq, Grammar.lt_of_term ht⟩

/-- Steps stay within the row and the limit. -/
theorem above_after (steps : List Step) (h : s.Above low c) : s.Above low (after s c steps) := by
  induction steps generalizing c with
  | nil => exact h
  | cons step steps ih => exact ih (step.orderly_parse h).cursor

end Step

/-- Whatever steps have been taken since the start, the next one keeps to the row and to the limit. -/
theorem fair_after (tokens : List Token) (maxDepth : Nat) (steps : List Step) (step : Step) :
    step.Fair ⟨tokens.toArray, maxDepth⟩ (Step.after ⟨tokens.toArray, maxDepth⟩ .start steps) := by
  have hstart : Stream.Above ⟨tokens.toArray, maxDepth⟩ .start .start :=
    .refl (Nat.zero_le _) (Nat.zero_le _)
  have habove := Step.above_after steps hstart
  exact step.fair habove.pos_le habove.depth_le

/-- The inner `block` fails and leaves both levels open; a failing skip keeps them. -/
example : Step.after
    ⟨([.kwBlock, .braceOpen, .kwBlock, .eof].map (Token.ofWord ∘ .ofKind)).toArray, 9⟩ .start
    [.term .free, .skip .braceOpen] = ⟨3, 2⟩ := rfl

end TermLang
