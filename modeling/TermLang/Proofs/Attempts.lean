import TermLang.Proofs.OrderlyTerms
import TermLang.Proofs.TermRuns

/-!
# Attempts at terms

The parser sets out to read terms inside terms, and sometimes a term for the second time. A term inside
another begins at a later token; so no more terms are open inside one another than there are tokens, and
the end of the input (`Call.Open.rises`). Of the terms that one rule sets out to read, those that begin at
the same token are counted (`Reply.readsAt`): they are two at most in a loop or in a branch.
-/

namespace TermLang

/-! ## Terms open at one time -/

/-- The terms read in a term. -/
def Call.inner : Call → List Call
  | .mk _ inner => inner

/-- Readings of terms that were open at one time, told by where they began, from the outermost one on. -/
inductive Call.Open : List Call → List Nat → Prop
  | none (calls : List Call) : Open calls []
  | some {calls : List Call} {a : Call} {starts : List Nat} :
      a ∈ calls → Open a.inner starts → Open calls (a.start :: starts)

/-- Terms that are open at one time begin at later and later tokens, and so are not many. -/
theorem Call.Open.rises {calls : List Call} {starts : List Nat} {first last : Nat}
    (h : Open calls starts) (hcalls : ∀ a ∈ calls, first ≤ a.start ∧ a.Rises last) :
    starts.Pairwise (· < ·) ∧ (∀ i ∈ starts, first ≤ i ∧ i ≤ last) ∧
      starts.length ≤ last + 1 - first := by
  induction h generalizing first with
  | none => exact ⟨.nil, nofun, Nat.zero_le _⟩
  | @some calls a starts ha _ ih =>
    obtain ⟨hfirst, hrises⟩ := hcalls a ha
    cases hrises with
    | @mk start inner hle hstart hinner =>
      obtain ⟨hpairwise, hbounds, hlen⟩ := ih fun b hb => ⟨hstart b hb, hinner b hb⟩
      simp only [Call.start] at hfirst ⊢
      refine ⟨.cons (fun i hi => (hbounds i hi).1) hpairwise, ?_, ?_⟩
      · refine List.forall_mem_cons.2 ⟨⟨hfirst, hle⟩, fun i hi => ?_⟩
        have := hbounds i hi
        omega
      · rw [List.length_cons]
        omega

namespace Reply

variable {α : Type}

/-- How many of the terms that were read, not counting those inside them, began at an index. -/
def readsAt (reply : Reply α) (i : Nat) : Nat := reply.calls.countP (·.start = i)

end Reply

namespace Parse

variable {α β : Type} {s : Stream} {low c : Cursor} {first i m n : Nat}

/-- Behind the start of a term no other term in it begins there. -/
theorem Orderly.readsAt_eq_zero {p : Parse α} (h : p.Orderly s low first c) (hi : i < first) :
    (p s c).readsAt i = 0 := by
  refine List.countP_eq_zero.2 fun a ha => ?_
  have := (h.calls a ha).1
  simp only [decide_eq_true_eq]
  omega

/-- The terms read in a sequence are those read in its parts. -/
theorem readsAt_bind {p : Parse α} {f : α → Parse β} (hp : (p s c).readsAt i ≤ m)
    (hf : ∀ a x, p.Runs s c a x → (f a s x).readsAt i ≤ n) : ((p >>= f) s c).readsAt i ≤ m + n := by
  show (Parse.bind p f s c).readsAt i ≤ m + n
  unfold Parse.bind Reply.readsAt at *
  dsimp only
  split
  · rename_i a hr
    have := hf a _ ⟨hr, rfl⟩
    rw [List.countP_append]
    omega
  · exact Nat.le_trans hp (Nat.le_add_right _ _)

/-- What follows a parser that reads no terms: it is orderly wherever terms may begin. -/
theorem readsAt_after {p : Parse α} {f : α → Parse β} (hp : p.Orderly s low (i + 1) c)
    (hf : ∀ a x, p.Runs s c a x → s.Above low x → (f a s x).readsAt i ≤ n) :
    ((p >>= f) s c).readsAt i ≤ n := by
  have hzero : (p s c).readsAt i ≤ 0 := Nat.le_of_eq (hp.readsAt_eq_zero (Nat.lt_succ_self i))
  have hrest : ∀ a x, p.Runs s c a x → (f a s x).readsAt i ≤ n := fun a x hrun =>
    hf a x hrun (hrun.2 ▸ hp.cursor)
  have := readsAt_bind hzero hrest
  rwa [Nat.zero_add] at this

theorem readsAt_look {p : Parse α} {f : α → Parse β} {a : α} {notes : List Note}
    (hp : p s c = { result := .ok a, cursor := c, notes := notes }) (h : s.Above low c)
    (hf : (f a s c).readsAt i ≤ n) : ((p >>= f) s c).readsAt i ≤ n := by
  refine readsAt_after (orderly_of_look hp h) fun b x hrun _ => ?_
  obtain ⟨rfl, rfl⟩ := hrun.unique ⟨by rw [hp], by rw [hp]⟩
  exact hf

theorem readsAt_at? {k : Kind} {f : Bool → Parse β} (h : s.Above low c)
    (hf : ∀ b, (f b s c).readsAt i ≤ n) : ((at? k >>= f) s c).readsAt i ≤ n := by
  refine readsAt_after (orderly_look rfl h (orderly_pure _ h)) fun b x hrun _ => ?_
  obtain ⟨-, rfl⟩ := runs_at?.1 hrun
  exact hf b

theorem readsAt_pure (a : α) : ((pure a : Parse α) s c).readsAt i ≤ n := Nat.zero_le _

theorem readsAt_map {p : Parse α} (f : α → β) (hp : (p s c).readsAt i ≤ n) :
    ((p >>= fun a => pure (f a)) s c).readsAt i ≤ n :=
  readsAt_bind (n := 0) hp fun _ _ _ => readsAt_pure _

end Parse

namespace Grammar

open Parse

variable {s : Stream} {c x : Cursor} {r : Restrictions} {i : Nat}

/-! ## Heads and guards -/

/-- A term is one reading, from where it begins. -/
theorem calls_term (r : Restrictions) (s : Stream) (c : Cursor) :
    ∃ inner, (term r s c).calls = [.mk c.pos inner] := by
  rw [term_apply]
  cases s.remaining c.pos with
  | zero => exact ⟨_, rfl⟩
  | succ levels => exact ⟨_, rfl⟩

theorem readsAt_term (r : Restrictions) (s : Stream) (c : Cursor) (i : Nat) :
    (term r s c).readsAt i = if c.pos = i then 1 else 0 := by
  obtain ⟨inner, hcalls⟩ := calls_term r s c
  rw [Reply.readsAt, hcalls]
  by_cases hi : c.pos = i <;> simp [Call.start, hi]

section

variable {low : Cursor} (hc : s.Above low c)

include hc

omit hc in
theorem ready_of_le {first n : Nat} (h : s.Above low c) (hfirst : first ≤ c.pos + n) :
    s.Ready low first n c := { h with first_le := hfirst }

/-- No two terms of a list begin at one token. -/
theorem readsAt_termsUntil {close : Kind} {rule : Rule} (htext : close.text?.isSome = true) :
    (termsUntil term close rule s c).readsAt i ≤ 1 := by
  have hwithin : ∀ bound {x : Cursor}, s.Above low x → (itemsWithin close startsTerm rule
      (close :: termStart) (term .free) bound s x).readsAt i ≤ 1 := by
    intro bound
    induction bound with
    | zero => exact fun _ => Nat.zero_le _
    | succ bound ih =>
      intro x hx
      refine readsAt_after (orderly_skip close hx) fun b y hskip hy => ?_
      rcases (runs_skip (Kind.plain_of_text? htext).1).1 hskip with ⟨-, rfl⟩ | ⟨-, rfl, rfl⟩
      · exact readsAt_pure []
      refine readsAt_look rfl hx ?_
      split
      · have hterms := (orderlyTerms_term s).keeps low
        by_cases hi : x.pos = i
        · refine readsAt_bind (m := 1) (n := 0) (by rw [readsAt_term, if_pos hi]) fun t y ht => ?_
          have hlt := lt_of_term ht
          have hy : s.Above low y := ht.2 ▸ (hterms 0 .free x (ready_of_le hx (Nat.zero_le _))).cursor
          have hrest : (itemsWithin close startsTerm rule (close :: termStart) (term .free) bound).Orderly
              s low (i + 1) y :=
            keeps_itemsWithin (hterms (i + 1) .free) (term_reads .free) htext bound y
              (ready_of_le hy (by omega))
          exact readsAt_after hrest fun _ _ _ _ => readsAt_pure _
        · refine readsAt_bind (m := 0) (n := 1) (by rw [readsAt_term, if_neg hi]) fun t y ht => ?_
          have hy : s.Above low y := ht.2 ▸ (hterms 0 .free x (ready_of_le hx (Nat.zero_le _))).cursor
          exact readsAt_map _ (ih hy)
      · exact Nat.zero_le _
  exact readsAt_look rfl hc (hwithin _ hc)

theorem readsAt_blocked (rule : Rule) :
    (blocked term rule s c).readsAt i ≤ if c.pos < i then 1 else 0 := by
  by_cases hi : c.pos < i
  · rw [if_pos hi]
    exact readsAt_after (orderly_expect .braceOpen rule hc) fun _ _ _ hx => readsAt_termsUntil hx rfl
  · rw [if_neg hi]
    have horderly := keeps_blocked (orderlyTerms_term s) rule c (ready_of_le hc (Nat.le_refl _))
    exact Nat.le_of_eq (horderly.readsAt_eq_zero (by omega))

theorem readsAt_body (r : Restrictions) :
    (body term r s c).readsAt i ≤ if c.pos < i then 1 else 0 := by
  by_cases hi : c.pos < i
  · rw [if_pos hi]
    refine readsAt_after (orderly_expect .fatArrow .fatArrow hc) fun _ x _ hx => ?_
    refine readsAt_at? hx fun b => ?_
    split
    · exact readsAt_map _ (Nat.le_trans (readsAt_blocked hx .fatArrow) (by split <;> omega))
    · refine readsAt_map _ ?_
      rw [readsAt_term]
      split <;> omega
  · rw [if_neg hi]
    have horderly := keeps_body (orderlyTerms_term s) r c (ready_of_le hc (Nat.le_refl _))
    exact Nat.le_of_eq (horderly.readsAt_eq_zero (by omega))

/-- The head of a loop is read twice at most, and from where it begins. -/
theorem readsAt_loopHead :
    (loopHead term s c).readsAt i ≤ if c.pos = i then 2 else 0 := by
  have hterm : ∀ r, (term r s c).readsAt i ≤ if c.pos = i then 1 else 0 := fun r =>
    Nat.le_of_eq (readsAt_term r s c i)
  have hsum : (if c.pos = i then 1 else 0) + (if c.pos = i then 1 else 0) = if c.pos = i then 2 else 0 := by
    split <;> rfl
  rw [← hsum]
  refine readsAt_look rfl hc (readsAt_bind (hterm .free) fun head x hhead => ?_)
  have hx : s.Above low x :=
    hhead.2 ▸ ((orderlyTerms_term s).keeps low 0 .free c (ready_of_le hc (Nat.zero_le _))).cursor
  refine readsAt_at? hx fun b => ?_
  split
  · exact readsAt_pure _
  · refine readsAt_after (orderly_openingBefore? hx) fun o z _ hz => ?_
    split
    · exact Nat.zero_le _
    · refine readsAt_after (orderly_of_move rfl hz hc) fun _ u hrun _ => ?_
      obtain rfl := runs_restore.1 hrun
      exact hterm .beforeBody

/-- What a loop reads behind its head begins at later tokens. -/
theorem readsAt_looped (f : Term → List Term → Term) : ((loopHead term >>= fun t =>
    blocked term .forRule >>= fun ts => pure (f t ts)) s c).readsAt i ≤ 2 := by
  have hhead := readsAt_loopHead (i := i) hc
  have horderly := keeps_loopHead (orderlyTerms_term s) c (ready_of_le hc (Nat.zero_le _))
  have hblock : ∀ t x, (loopHead term).Runs s c t x → ((blocked term .forRule >>= fun ts =>
      pure (f t ts)) s x).readsAt i ≤ if c.pos = i then 0 else 1 := by
    intro t x ht
    have hlen := (loopHead_reads term_reads ht).row.stop_eq
    have hpos := List.length_pos_iff.2 t.yield_ne_nil
    refine readsAt_map _ (Nat.le_trans (readsAt_blocked (ht.2 ▸ horderly.cursor) .forRule) ?_)
    by_cases hi : c.pos = i
    · rw [if_pos hi, if_neg (by omega)]
    · rw [if_neg hi]
      split <;> omega
  refine Nat.le_trans (readsAt_bind hhead hblock) ?_
  split <;> omega

/-- Of the terms that a loop sets out to read, two begin at one token at most: its head, when it is read
again. -/
theorem readsAt_loop : (loop term s c).readsAt i ≤ 2 := by
  refine readsAt_after (orderly_expect .kwFor .forRule hc) fun _ x _ hx => ?_
  refine readsAt_at? hx fun named => readsAt_look rfl hx ?_
  split
  · refine readsAt_after (orderly_expectIdent .forRule hx) fun name y _ hy => ?_
    exact readsAt_after (orderly_bump hy) fun _ z _ hz => readsAt_looped hz _
  · refine readsAt_at? hx fun forever => ?_
    split
    · exact readsAt_map _ (Nat.le_trans (readsAt_blocked hx .forRule) (by split <;> omega))
    · exact readsAt_looped hx _

/-- Of the terms that a branch sets out to read, two begin at one token at most: its guard, when it is
read again. -/
theorem readsAt_branch : (branch term s c).readsAt i ≤ 2 := by
  refine readsAt_after (orderly_expect .kwWhen .whenRule hc) fun _ x _ hx => readsAt_look rfl hx ?_
  have hready := ready_of_le hx (Nat.zero_le (x.pos + 0))
  have hterm : ∀ {r : Restrictions} {guard : Term} {y : Cursor}, (term r).Runs s x guard y →
      x.pos < y.pos ∧ s.Above low y := fun {r} _ _ hrun =>
    ⟨lt_of_term hrun, hrun.2 ▸ ((orderlyTerms_term s).keeps low 0 r x hready).cursor⟩
  have rest : ∀ (guard : Term) {y : Cursor}, x.pos < y.pos ∧ s.Above low y →
      ((body term .free >>= fun b => pure (Branch.mk guard b)) s y).readsAt i ≤
        if x.pos < i then 1 else 0 := by
    rintro guard y ⟨hlt, hy⟩
    refine readsAt_map _ (Nat.le_trans (readsAt_body hy .free) ?_)
    by_cases hi : x.pos < i
    · rw [if_pos hi]
      split <;> omega
    · rw [if_neg hi, if_neg (by omega)]
  have hreads : ∀ r, (term r s x).readsAt i ≤ if x.pos = i then 1 else 0 := fun r =>
    Nat.le_of_eq (readsAt_term r s x i)
  refine Nat.le_trans (readsAt_bind (n := (if x.pos = i then 1 else 0) + if x.pos < i then 1 else 0)
    (hreads .free) fun guard y hguard => ?_) (by split <;> split <;> omega)
  have hy := hterm hguard
  refine readsAt_at? hy.2 fun found => ?_
  split
  · exact readsAt_look rfl hy.2 (Nat.le_trans (rest guard hy) (Nat.le_add_left _ _))
  · refine readsAt_look rfl hy.2 (readsAt_look rfl hy.2 ?_)
    refine readsAt_after (orderly_of_move rfl hy.2 hx) fun _ u hrun _ => ?_
    obtain rfl := runs_restore.1 hrun
    exact readsAt_bind (hreads .beforeArrow) fun guard z hz => rest guard (hterm hz)

end

/-- In `for a = b { c }` the head takes the body first, and is read again. -/
example : (loop term ⟨([.kwFor, .ident, .equals, .ident, .braceOpen, .ident, .braceClose, .eof].map
    (Token.ofWord ∘ .ofKind)).toArray, 9⟩ .start).readsAt 1 = 2 := rfl

end Grammar

end TermLang
