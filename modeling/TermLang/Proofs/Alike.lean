import TermLang.Grammar.Program
import TermLang.Proofs.Yield

/-!
# Parsers on streams that read alike

Two streams read alike if they hold the same terminals; the second may allow more nesting levels. A
parser is steady if it does the same on both: it answers the same value from the same cursor, or
fails at the same cursor for the same reason. The one way out is that the first stream runs into its
lower nesting limit, and then nothing is said of the second. A speculation keeps a parser steady
because it passes this failure on and takes only the other failures back.
-/

namespace TermLang

/-! ## Streams -/

/-- The streams hold the same terminals, and the second allows no fewer nesting levels. -/
structure Stream.Alike (s s' : Stream) : Prop where
  terminals : s.tokens.toList.map (·.terminal) = s'.tokens.toList.map (·.terminal)
  maxDepth_le : s.maxDepth ≤ s'.maxDepth

namespace Stream

theorem closeIn_congr : ∀ {ts ts' : List Token} (i opened : Nat),
    ts.map (·.kind) = ts'.map (·.kind) → closeIn ts i opened = closeIn ts' i opened
  | [], [], _, _, _ => rfl
  | t :: ts, t' :: ts', i, opened, h => by
    have hk : t.kind = t'.kind := (List.cons_eq_cons.1 h).1
    have hts := (List.cons_eq_cons.1 h).2
    unfold closeIn
    rw [hk]
    split
    · exact closeIn_congr (i + 1) (opened + 1) hts
    · split
      · rfl
      · rfl
      · exact closeIn_congr (i + 1) _ hts
    · split
      · rfl
      · exact closeIn_congr (i + 1) opened hts

theorem openIn_congr : ∀ {ts ts' : List Token} (i closed : Nat),
    ts.map (·.kind) = ts'.map (·.kind) → openIn ts i closed = openIn ts' i closed
  | [], [], _, _, _ => rfl
  | t :: ts, t' :: ts', i, closed, h => by
    have hk : t.kind = t'.kind := (List.cons_eq_cons.1 h).1
    have hts := (List.cons_eq_cons.1 h).2
    unfold openIn
    rw [hk]
    split
    · exact openIn_congr (i - 1) (closed + 1) hts
    · split
      · rfl
      · rfl
      · exact openIn_congr (i - 1) _ hts
    · exact openIn_congr (i - 1) closed hts

namespace Alike

variable {s s' : Stream}

theorem terminal_eq (h : s.Alike s') (i : Nat) :
    s.tokens[i]?.map (·.terminal) = s'.tokens[i]?.map (·.terminal) := by
  rw [← Array.getElem?_toList, ← Array.getElem?_toList, ← List.getElem?_map, h.terminals,
    List.getElem?_map]

theorem size_eq (h : s.Alike s') : s.tokens.size = s'.tokens.size := by
  have := congrArg List.length h.terminals
  rwa [List.length_map, List.length_map] at this

theorem kinds_eq (h : s.Alike s') :
    s.tokens.toList.map (·.kind) = s'.tokens.toList.map (·.kind) := by
  have hk : ∀ ts : List Token, ts.map (·.kind) = (ts.map (·.terminal)).map Terminal.kind := by
    intro ts
    rw [List.map_map]
    exact List.map_congr_left fun t _ => (Word.kind_terminal t.toWord).symm
  rw [hk, hk, h.terminals]

theorem kindAt_eq (h : s.Alike s') (i : Nat) : s.kindAt i = s'.kindAt i := by
  have ht := h.terminal_eq i
  unfold kindAt
  split <;> split <;> simp_all
  exact Word.kind_eq_of_terminal_eq ht

theorem remaining_eq (h : s.Alike s') (i : Nat) : s.remaining i = s'.remaining i := by
  rw [remaining, remaining, h.size_eq]

theorem matchingClose?_eq (h : s.Alike s') (i : Nat) : s.matchingClose? i = s'.matchingClose? i := by
  refine closeIn_congr i 0 ?_
  rw [List.map_drop, List.map_drop, h.kinds_eq]

theorem matchingOpen?_eq (h : s.Alike s') (i : Nat) : s.matchingOpen? i = s'.matchingOpen? i := by
  have hlen : (s.tokens.toList.take (i + 1)).length = (s'.tokens.toList.take (i + 1)).length := by
    rw [List.length_take, List.length_take, Array.length_toList, Array.length_toList, h.size_eq]
  rw [matchingOpen?, matchingOpen?, hlen]
  refine openIn_congr _ 0 ?_
  rw [List.map_reverse, List.map_reverse, List.map_take, List.map_take, h.kinds_eq]

end Alike

end Stream

/-! ## Replies and parsers -/

/-- The replies of a parser on two streams: related values and the same cursor, or the same error,
or the first stream hit its nesting limit where the second has a higher one. -/
inductive Reply.Alike {α β : Type} (s s' : Stream) (V : α → β → Prop) (r : Reply α) (r' : Reply β) :
    Prop
  | ok {a : α} {b : β} :
      r.result = .ok a → r'.result = .ok b → V a b → r.cursor = r'.cursor → r.Alike s s' V r'
  | error {c : Cursor} {rule : Rule} {fault : SyntaxFault} :
      r.result = .error (Parse.errorAt s c rule fault) →
      r'.result = .error (Parse.errorAt s' c rule fault) → r.Alike s s' V r'
  | tooDeep {e : SyntaxError} :
      s.maxDepth < s'.maxDepth → r.result = .error e → e.isTooDeep → r.Alike s s' V r'

namespace Parse

variable {α β γ δ : Type}

/-- Two parsers answer alike on streams that read alike, values being compared by a relation. -/
def Agrees (V : α → β → Prop) (p : Parse α) (p' : Parse β) : Prop :=
  ∀ ⦃s s' : Stream⦄, s.Alike s' → ∀ c, (p s c).Alike s s' V (p' s' c)

/-- The parser answers alike on streams that read alike. -/
def Steady (p : Parse α) : Prop := p.Agrees Eq p

theorem bind_of_ok {p : Parse α} {f : α → Parse β} {s : Stream} {c : Cursor} {a : α}
    (h : (p s c).result = .ok a) :
    ((p >>= f) s c).result = (f a s (p s c).cursor).result ∧
      ((p >>= f) s c).cursor = (f a s (p s c).cursor).cursor := by
  show (Parse.bind p f s c).result = _ ∧ (Parse.bind p f s c).cursor = _
  simp only [Parse.bind, h, and_self]

theorem bind_of_error {p : Parse α} {f : α → Parse β} {s : Stream} {c : Cursor} {e : SyntaxError}
    (h : (p s c).result = .error e) : ((p >>= f) s c).result = .error e := by
  show (Parse.bind p f s c).result = _
  simp only [Parse.bind, h]

theorem Agrees.bind {V : α → β → Prop} {W : γ → δ → Prop} {p : Parse α} {p' : Parse β}
    {f : α → Parse γ} {f' : β → Parse δ} (hp : p.Agrees V p')
    (hf : ∀ a b, V a b → (f a).Agrees W (f' b)) : (p >>= f).Agrees W (p' >>= f') := by
  intro s s' h c
  cases hp h c with
  | @ok a b ha hb hv hc =>
    obtain ⟨hr, hcur⟩ := bind_of_ok (f := f) ha
    obtain ⟨hr', hcur'⟩ := bind_of_ok (f := f') hb
    rw [← hc] at hr' hcur'
    cases hf a b hv h (p s c).cursor with
    | ok ha hb hv hc => exact .ok (hr.trans ha) (hr'.trans hb) hv (hcur.trans (hc.trans hcur'.symm))
    | error ha hb => exact .error (hr.trans ha) (hr'.trans hb)
    | tooDeep hm ha he => exact .tooDeep hm (hr.trans ha) he
  | error ha hb => exact .error (bind_of_error ha) (bind_of_error hb)
  | tooDeep hm ha he => exact .tooDeep hm (bind_of_error ha) he

theorem agrees_pure {V : α → β → Prop} {a : α} {b : β} (h : V a b) :
    (pure a : Parse α).Agrees V (pure b) := fun _ _ _ _ => .ok rfl rfl h rfl

theorem steady_pure (a : α) : (pure a : Parse α).Steady := agrees_pure rfl

theorem Steady.bind {p : Parse α} {f : α → Parse γ} (hp : p.Steady) (hf : ∀ a, (f a).Steady) :
    (p >>= f).Steady := by
  refine Agrees.bind hp ?_
  rintro a _ rfl
  exact hf a

theorem Steady.called {p : Parse α} (hp : p.Steady) : (called p).Steady := by
  intro s s' h c
  cases hp h c with
  | ok ha hb hv hc => exact .ok ha hb hv hc
  | error ha hb => exact .error ha hb
  | tooDeep hlt ha he => exact .tooDeep hlt ha he

/-! ## Looking -/

theorem steady_cursor : cursor.Steady := fun _ _ _ _ => .ok rfl rfl rfl rfl

theorem agrees_current :
    current.Agrees (fun t t' => t.map (·.terminal) = t'.map (·.terminal)) current :=
  fun _ _ h c => .ok rfl rfl (h.terminal_eq c.pos) rfl

theorem steady_nthKind (n : Nat) : (nthKind n).Steady :=
  fun _ _ h c => .ok rfl rfl (h.kindAt_eq (c.pos + n)) rfl

theorem steady_kind : kind.Steady := steady_nthKind 0

theorem steady_kindAt (i : Nat) : (kindAt i).Steady :=
  fun _ _ h _ => .ok rfl rfl (h.kindAt_eq i) rfl

theorem steady_at? (k : Kind) : (at? k).Steady := steady_kind.bind fun _ => steady_pure _

theorem steady_remaining : remaining.Steady :=
  fun _ _ h c => .ok rfl rfl (h.remaining_eq c.pos) rfl

theorem steady_matchingClose? : matchingClose?.Steady :=
  fun _ _ h c => .ok rfl rfl (h.matchingClose?_eq c.pos) rfl

theorem steady_openingBefore? : openingBefore?.Steady := by
  intro s s' h c
  unfold openingBefore?
  cases c.pos with
  | zero => exact .ok rfl rfl rfl rfl
  | succ last => exact .ok rfl rfl (h.matchingOpen?_eq last) rfl

/-! ## Moving -/

theorem steady_bump : bump.Steady := by
  intro s s' h c
  refine .ok rfl rfl rfl ?_
  unfold bump
  rw [h.kindAt_eq]

theorem steady_skip (k : Kind) : (skip k).Steady := by
  refine (steady_at? k).bind fun b => ?_
  cases b with
  | false => exact steady_pure false
  | true => exact steady_bump.bind fun _ => steady_pure true

theorem steady_seek (i : Nat) : (seek i).Steady := by
  intro s s' h c
  refine .ok rfl rfl rfl ?_
  unfold seek
  rw [h.size_eq]

theorem steady_restore (saved : Cursor) : (restore saved).Steady := fun _ _ _ _ => .ok rfl rfl rfl rfl

theorem steady_note (n : Note) : (note n).Steady := fun _ _ _ _ => .ok rfl rfl rfl rfl

/-! ## Failing and expecting -/

theorem agrees_reject {V : α → β → Prop} (rule : Rule) (expected : List Kind) :
    (reject rule expected : Parse α).Agrees V (reject rule expected) :=
  fun _ _ _ _ => .error rfl rfl

theorem steady_reject (rule : Rule) (expected : List Kind) :
    (reject rule expected : Parse α).Steady := agrees_reject rule expected

/-- A token that is expected is handed on with its terminal. -/
theorem agrees_expect (k : Kind) (rule : Rule) :
    (expect k rule).Agrees (fun t t' => t.kind = k ∧ t.terminal = t'.terminal) (expect k rule) := by
  refine agrees_current.bind fun t t' ht => ?_
  rcases t with _ | t <;> rcases t' with _ | t' <;> simp only [Option.map_none, Option.map_some,
    reduceCtorEq, Option.some.injEq] at ht
  · exact agrees_reject rule [k]
  · have hk : t'.kind = t.kind := (Word.kind_eq_of_terminal_eq ht).symm
    dsimp only
    rw [hk]
    by_cases he : t.kind = k
    · rw [if_pos he, if_pos he]
      exact Agrees.bind steady_bump fun _ _ _ => agrees_pure ⟨he, ht⟩
    · rw [if_neg he, if_neg he]
      exact agrees_reject rule [k]

theorem steady_expectIdent (rule : Rule) : (expectIdent rule).Steady := by
  refine (agrees_expect .ident rule).bind fun t t' h => agrees_pure ?_
  obtain ⟨hk, ht⟩ := h
  rw [Word.terminal_ident hk] at ht
  exact (Word.terminal_eq_name_iff.1 ht.symm).2.symm

/-- After a token that is expected, a parser that does not use it. -/
theorem Steady.after_expect {q : Parse α} (hq : q.Steady) (k : Kind) (rule : Rule) :
    (expect k rule >>= fun _ => q).Steady :=
  (agrees_expect k rule).bind fun _ _ _ => hq

/-! ## Nesting, speculation and lists -/

/-- A level that the first stream may open, the second may open as well. -/
theorem steady_descend : descend.Steady := by
  intro s s' h c
  unfold descend
  by_cases hd : s.maxDepth ≤ c.depth
  · rw [if_pos hd]
    by_cases hm : s.maxDepth < s'.maxDepth
    · exact .tooDeep hm rfl rfl
    · have heq : s'.maxDepth = s.maxDepth := by have := h.maxDepth_le; omega
      rw [heq, if_pos hd]
      exact .error rfl rfl
  · have hd' : ¬ s'.maxDepth ≤ c.depth := by have := h.maxDepth_le; omega
    rw [if_neg hd, if_neg hd']
    exact .ok rfl rfl rfl rfl

theorem steady_ascend : ascend.Steady := fun _ _ _ _ => .ok rfl rfl rfl rfl

theorem speculate_of_ok {p : Parse α} {s : Stream} {c : Cursor} {a : α}
    (h : (p s c).result = .ok a) :
    (speculate p s c).result = .ok (some a) ∧ (speculate p s c).cursor = (p s c).cursor := by
  simp only [speculate, h, and_self]

theorem speculate_of_error {p : Parse α} {s : Stream} {c : Cursor} {e : SyntaxError}
    (h : (p s c).result = .error e) (he : e.isTooDeep = false) :
    (speculate p s c).result = .ok none ∧ (speculate p s c).cursor = c := by
  simp only [speculate, h, he, Bool.false_eq_true, if_false, and_self]

theorem speculate_of_tooDeep {p : Parse α} {s : Stream} {c : Cursor} {e : SyntaxError}
    (h : (p s c).result = .error e) (he : e.isTooDeep = true) :
    (speculate p s c).result = .error e := by
  simp only [speculate, h, he, if_true]

/-- The limit is never taken for an ordinary failure, so that a speculation stays steady. -/
theorem Steady.speculate {p : Parse α} (hp : p.Steady) : (speculate p).Steady := by
  intro s s' h c
  cases hp h c with
  | ok ha hb hv hc =>
    obtain ⟨hr, hcur⟩ := speculate_of_ok ha
    obtain ⟨hr', hcur'⟩ := speculate_of_ok hb
    exact .ok hr hr' (congrArg some hv) (hcur.trans (hc.trans hcur'.symm))
  | @error c₁ rule fault ha hb =>
    cases fault with
    | unexpected kinds =>
      obtain ⟨hr, hcur⟩ := speculate_of_error ha rfl
      obtain ⟨hr', hcur'⟩ := speculate_of_error hb rfl
      exact .ok hr hr' rfl (hcur.trans hcur'.symm)
    | tooDeep limit => exact .error (speculate_of_tooDeep ha rfl) (speculate_of_tooDeep hb rfl)
  | tooDeep hm ha he => exact .tooDeep hm (speculate_of_tooDeep ha he) he

theorem Steady.itemsUntil {close : Kind} {begins : Kind → Bool} {rule : Rule}
    {expected : List Kind} {item : Parse α} (hitem : item.Steady) :
    (itemsUntil close begins rule expected item).Steady := by
  have hwithin : ∀ bound, (itemsWithin close begins rule expected item bound).Steady := by
    intro bound
    induction bound with
    | zero => exact steady_reject rule expected
    | succ bound ih =>
      refine (steady_skip close).bind fun b => ?_
      cases b with
      | true => exact steady_pure []
      | false =>
        refine steady_kind.bind fun k => ?_
        by_cases hk : begins k = true
        · rw [if_pos hk]
          exact hitem.bind fun _ => ih.bind fun _ => steady_pure _
        · rw [if_neg hk]
          exact steady_reject rule expected
  exact steady_remaining.bind hwithin

end Parse

end TermLang
