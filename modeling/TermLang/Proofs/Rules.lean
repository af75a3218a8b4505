import TermLang.Proofs.Runs

/-!
# Laws of the runs of rules

What a run of a rule consists of, with any parser of terms for the terms inside: a law for lists, for
annotations, for bodies and for bindings, a case for each shape of a head (`Headed`) and of a link
(`Linked`), and where chains end. Runs are taken apart by these laws, and put together again.
-/

namespace TermLang.Grammar

open Parse

variable {term : TermParser} {s : Stream} {c x : Cursor} {r : Restrictions}

/-! ## Lists -/

/-- One more item of a list, or its end. -/
theorem runs_itemsWithin_succ {α : Type} {close : Kind} {begins : Kind → Bool} {rule : Rule}
    {expected : List Kind} {item : Parse α} {bound : Nat} {as : List α} (he : close ≠ .eof) :
    (itemsWithin close begins rule expected item (bound + 1)).Runs s c as x ↔
      (as = [] ∧ ∃ t, s.Takes c t x ∧ t.kind = close) ∨
      (s.kindAt c.pos ≠ close ∧ begins (s.kindAt c.pos) = true ∧ ∃ a y others, as = a :: others ∧
        item.Runs s c a y ∧
          (itemsWithin close begins rule expected item bound).Runs s y others x) := by
  simp only [itemsWithin, runs_bind, runs_skip he]
  constructor
  · rintro ⟨b, y, ⟨⟨t, ht, hk⟩, rfl⟩ | ⟨hk, rfl, rfl⟩, hrun⟩
    · obtain ⟨rfl, rfl⟩ := runs_pure.1 hrun
      exact .inl ⟨rfl, t, ht, hk⟩
    · simp only [Bool.false_eq_true, if_false, runs_bind, runs_kind] at hrun
      obtain ⟨_, _, ⟨rfl, rfl⟩, hrun⟩ := hrun
      split at hrun
      · rename_i hb
        simp only [runs_bind, runs_pure] at hrun
        obtain ⟨a, y, ha, others, _, hothers, rfl, rfl⟩ := hrun
        exact .inr ⟨hk, hb, a, y, others, rfl, ha, hothers⟩
      · exact absurd hrun not_runs_reject
  · rintro (⟨rfl, ht⟩ | ⟨hk, hb, a, y, others, rfl, ha, hothers⟩)
    · exact ⟨true, x, .inl ⟨ht, rfl⟩, runs_pure.2 ⟨rfl, rfl⟩⟩
    · refine ⟨false, c, .inr ⟨hk, rfl, rfl⟩, ?_⟩
      simp only [Bool.false_eq_true, if_false, runs_bind, runs_kind]
      refine ⟨_, _, ⟨rfl, rfl⟩, ?_⟩
      rw [if_pos hb]
      simp only [runs_bind, runs_pure]
      exact ⟨a, y, ha, others, x, hothers, rfl, rfl⟩

/-! ## Annotations -/

/-- Behind the colon of an annotation stands the mark of a spread and a term, or a term that begins with
no such mark. -/
theorem runs_anno {a : Anno} : (anno term r).Runs s c a x ↔
    ∃ mark y z t, (expect .colon .anno).Runs s c mark y ∧ (term r).Runs s z t x ∧
      ((∃ sort : Spread, a = .mk (some sort) t ∧ s.kindAt y.pos = sort.mark ∧ bump.Runs s y () z) ∨
        a = .mk none t ∧ (∀ sort : Spread, s.kindAt y.pos ≠ sort.mark) ∧ z = y) := by
  simp only [anno, runs_bind, runs_kind]
  constructor
  · rintro ⟨mark, y, hcolon, _, _, ⟨rfl, rfl⟩, hrun⟩
    split at hrun
    · rename_i hk
      simp only [runs_bind, runs_pure] at hrun
      obtain ⟨_, z, hstar, _, _, ⟨rfl, rfl⟩, t, _, ht, rfl, rfl⟩ := hrun
      exact ⟨mark, y, z, t, hcolon, ht, .inl ⟨.tuple, rfl, hk, hstar⟩⟩
    · rename_i hk
      simp only [runs_bind, runs_pure] at hrun
      obtain ⟨_, z, hstar, _, _, ⟨rfl, rfl⟩, t, _, ht, rfl, rfl⟩ := hrun
      exact ⟨mark, y, z, t, hcolon, ht, .inl ⟨.dict, rfl, hk, hstar⟩⟩
    · rename_i hstar hstars
      simp only [runs_bind, runs_pure] at hrun
      obtain ⟨_, _, ⟨rfl, rfl⟩, t, _, ht, rfl, rfl⟩ := hrun
      refine ⟨mark, y, y, t, hcolon, ht, .inr ⟨rfl, fun sort => ?_, rfl⟩⟩
      cases sort
      · exact hstar
      · exact hstars
  · rintro ⟨mark, y, z, t, hcolon, ht, ⟨sort, rfl, hk, hbump⟩ | ⟨rfl, hne, rfl⟩⟩
    · refine ⟨mark, y, hcolon, _, _, ⟨rfl, rfl⟩, ?_⟩
      rw [hk]
      cases sort <;>
        exact runs_bind.2 ⟨(), z, hbump, runs_bind.2 ⟨_, z, runs_pure.2 ⟨rfl, rfl⟩,
          runs_bind.2 ⟨t, x, ht, runs_pure.2 ⟨rfl, rfl⟩⟩⟩⟩
    · refine ⟨mark, z, hcolon, _, _, ⟨rfl, rfl⟩, ?_⟩
      split
      · exact absurd ‹_› (hne .tuple)
      · exact absurd ‹_› (hne .dict)
      · exact runs_bind.2 ⟨_, z, runs_pure.2 ⟨rfl, rfl⟩, runs_bind.2 ⟨t, x, ht, runs_pure.2 ⟨rfl, rfl⟩⟩⟩

theorem runs_anno? {a : Option Anno} : (anno? term r).Runs s c a x ↔
    (s.kindAt c.pos = .colon ∧ ∃ b, a = some b ∧ (anno term r).Runs s c b x) ∨
      s.kindAt c.pos ≠ .colon ∧ a = none ∧ x = c := by
  simp only [anno?, runs_bind, runs_at?]
  constructor
  · rintro ⟨_, _, ⟨rfl, rfl⟩, hrun⟩
    split at hrun
    · rename_i hk
      simp only [runs_bind, runs_pure] at hrun
      obtain ⟨b, _, hb, rfl, rfl⟩ := hrun
      exact .inl ⟨of_decide_eq_true hk, b, rfl, hb⟩
    · rename_i hk
      obtain ⟨rfl, rfl⟩ := runs_pure.1 hrun
      exact .inr ⟨of_decide_eq_false (Bool.not_eq_true _ ▸ hk), rfl, rfl⟩
  · rintro (⟨hk, b, rfl, hb⟩ | ⟨hk, rfl, rfl⟩)
    · refine ⟨_, _, ⟨rfl, rfl⟩, ?_⟩
      rw [if_pos (decide_eq_true hk)]
      exact runs_bind.2 ⟨b, x, hb, runs_pure.2 ⟨rfl, rfl⟩⟩
    · refine ⟨_, _, ⟨rfl, rfl⟩, ?_⟩
      rw [if_neg (by simpa using hk)]
      exact runs_pure.2 ⟨rfl, rfl⟩

/-! ## Bodies and bindings -/

/-- A body is a block or a term. -/
theorem runs_body {b : Body} : (body term r).Runs s c b x ↔ ∃ mark y,
    (expect .fatArrow .fatArrow).Runs s c mark y ∧
      (s.kindAt y.pos = .braceOpen ∧ (∃ ts, b = .block ts ∧ (blocked term .fatArrow).Runs s y ts x) ∨
        s.kindAt y.pos ≠ .braceOpen ∧ ∃ t, b = .single t ∧ (term r).Runs s y t x) := by
  simp only [body, runs_bind, runs_at?]
  constructor
  · rintro ⟨mark, y, harrow, _, _, ⟨rfl, rfl⟩, hrun⟩
    refine ⟨mark, y, harrow, ?_⟩
    split at hrun
    · rename_i hk
      simp only [runs_bind, runs_pure] at hrun
      obtain ⟨ts, _, hts, rfl, rfl⟩ := hrun
      exact .inl ⟨of_decide_eq_true hk, ts, rfl, hts⟩
    · rename_i hk
      simp only [runs_bind, runs_pure] at hrun
      obtain ⟨t, _, ht, rfl, rfl⟩ := hrun
      exact .inr ⟨of_decide_eq_false (Bool.not_eq_true _ ▸ hk), t, rfl, ht⟩
  · rintro ⟨mark, y, harrow, ⟨hk, ts, rfl, hts⟩ | ⟨hk, t, rfl, ht⟩⟩
    · refine ⟨mark, y, harrow, _, _, ⟨rfl, rfl⟩, ?_⟩
      rw [if_pos (decide_eq_true hk)]
      exact runs_bind.2 ⟨ts, x, hts, runs_pure.2 ⟨rfl, rfl⟩⟩
    · refine ⟨mark, y, harrow, _, _, ⟨rfl, rfl⟩, ?_⟩
      rw [if_neg (by simpa using hk)]
      exact runs_bind.2 ⟨t, x, ht, runs_pure.2 ⟨rfl, rfl⟩⟩

/-- A binding has a value if a colon or an equals sign follows its name. -/
theorem runs_binding {b : Binding} : (binding term r).Runs s c b x ↔ ∃ mark y name z,
    (expect .kwLet .letRule).Runs s c mark y ∧ (expectIdent .letRule).Runs s y name z ∧
      ((s.kindAt z.pos = .colon ∨ s.kindAt z.pos = .equals) ∧ (∃ a u mark' v value,
        b = .init name a value ∧ (anno? term .beforeAssign).Runs s z a u ∧
        (expect .equals .letRule).Runs s u mark' v ∧ (term r).Runs s v value x) ∨
      ¬ (s.kindAt z.pos = .colon ∨ s.kindAt z.pos = .equals) ∧ b = .bare name ∧ x = z) := by
  simp only [binding, runs_bind, runs_kind]
  constructor
  · rintro ⟨mark, y, hlet, name, z, hname, _, _, ⟨rfl, rfl⟩, hrun⟩
    refine ⟨mark, y, name, z, hlet, hname, ?_⟩
    split at hrun
    · rename_i hk
      simp only [runs_bind, runs_pure] at hrun
      obtain ⟨a, u, ha, mark', v, heq, value, _, hvalue, rfl, rfl⟩ := hrun
      exact .inl ⟨hk, a, u, mark', v, value, rfl, ha, heq, hvalue⟩
    · rename_i hk
      obtain ⟨rfl, rfl⟩ := runs_pure.1 hrun
      exact .inr ⟨hk, rfl, rfl⟩
  · rintro ⟨mark, y, name, z, hlet, hname, ⟨hk, a, u, mark', v, value, rfl, ha, heq, hvalue⟩ |
      ⟨hk, rfl, rfl⟩⟩
    · refine ⟨mark, y, hlet, name, z, hname, _, _, ⟨rfl, rfl⟩, ?_⟩
      rw [if_pos hk]
      simp only [runs_bind, runs_pure]
      exact ⟨a, u, ha, mark', v, heq, value, x, hvalue, rfl, rfl⟩
    · refine ⟨mark, y, hlet, name, x, hname, _, _, ⟨rfl, rfl⟩, ?_⟩
      rw [if_neg hk]
      exact runs_pure.2 ⟨rfl, rfl⟩

/-! ## Heads -/

/-- The kinds of the tokens that are heads by themselves. -/
def literalKinds : List Kind := [.bool, .ident, .integer, .decimal, .string, .char]

/-- What a head is read of, by its first token. -/
inductive Headed (term : TermParser) (s : Stream) (r : Restrictions) (c : Cursor) : Term → Cursor → Prop
  | block {y x : Cursor} {ts : List Term} : s.kindAt c.pos = .kwBlock → bump.Runs s c () y →
      (blocked term .block).Runs s y ts x → Headed term s r c (.block ts) x
  | generic {t : Term} {x : Cursor} : s.kindAt c.pos = .bracketOpen → (generic term r).Runs s c t x →
      Headed term s r c t x
  | binding {b : Binding} {x : Cursor} : s.kindAt c.pos = .kwLet → (binding term r).Runs s c b x →
      Headed term s r c (.binding b) x
  | loop {t : Term} {x : Cursor} : s.kindAt c.pos = .kwFor → (loop term).Runs s c t x →
      Headed term s r c t x
  | signature (sort : Signature) {t : Term} {x : Cursor} : s.kindAt c.pos = sort.keyword →
      (signature term sort).Runs s c t x → Headed term s r c t x
  | record (sort : Record) {t : Term} {x : Cursor} : s.kindAt c.pos = sort.keyword →
      (record term sort).Runs s c t x → Headed term s r c t x
  | trait {t : Term} {x : Cursor} : s.kindAt c.pos = .kwTrait → (trait term).Runs s c t x →
      Headed term s r c t x
  | function {t : Term} {x : Cursor} : s.kindAt c.pos = .parenOpen → (function term r).Runs s c t x →
      Headed term s r c t x
  | cases {t : Term} {x : Cursor} : s.kindAt c.pos = .kwCase → (caseOf term).Runs s c t x →
      Headed term s r c t x
  | spread (sort : Spread) {t : Term} {x : Cursor} : s.kindAt c.pos = sort.mark →
      (spread term r sort).Runs s c t x → Headed term s r c t x
  | literal {t : Term} {x : Cursor} : s.kindAt c.pos ∈ literalKinds → literal.Runs s c t x →
      Headed term s r c t x

theorem runs_head {t : Term} : (head term r).Runs s c t x ↔ Headed term s r c t x := by
  simp only [head, runs_bind, runs_kind]
  constructor
  · rintro ⟨_, _, ⟨rfl, rfl⟩, hrun⟩
    cases hk : s.kindAt c.pos <;> rw [hk] at hrun
    case kwBlock =>
      simp only [runs_bind, runs_pure] at hrun
      obtain ⟨_, y, hbump, ts, _, hts, rfl, rfl⟩ := hrun
      exact .block hk hbump hts
    case bracketOpen => exact .generic hk hrun
    case kwLet =>
      simp only [runs_bind, runs_pure] at hrun
      obtain ⟨b, _, hb, rfl, rfl⟩ := hrun
      exact .binding hk hb
    case kwFor => exact .loop hk hrun
    case kwStructOf => exact .signature .struct hk hrun
    case kwEnumOf => exact .signature .enum hk hrun
    case kwTraitOf => exact .signature .trait hk hrun
    case kwKindOf => exact .signature .kind hk hrun
    case kwStruct => exact .record .struct hk hrun
    case kwEnum => exact .record .enum hk hrun
    case kwKind => exact .record .kind hk hrun
    case kwTrait => exact .trait hk hrun
    case parenOpen => exact .function hk hrun
    case kwCase => exact .cases hk hrun
    case star => exact .spread .tuple hk hrun
    case starStar => exact .spread .dict hk hrun
    case bool | ident | integer | decimal | string | char =>
      exact .literal (by rw [hk]; decide) hrun
    all_goals exact absurd hrun not_runs_reject
  · intro h
    refine ⟨_, _, ⟨rfl, rfl⟩, ?_⟩
    cases h with
    | block hk hbump hts =>
      rw [hk]
      exact runs_bind.2 ⟨(), _, hbump, runs_bind.2 ⟨_, _, hts, runs_pure.2 ⟨rfl, rfl⟩⟩⟩
    | binding hk hb =>
      rw [hk]
      exact runs_bind.2 ⟨_, _, hb, runs_pure.2 ⟨rfl, rfl⟩⟩
    | generic hk hrun | loop hk hrun | trait hk hrun | function hk hrun | cases hk hrun =>
      rw [hk]
      exact hrun
    | signature sort hk hrun | record sort hk hrun | spread sort hk hrun =>
      rw [hk]
      cases sort <;> exact hrun
    | literal hk hrun =>
      generalize s.kindAt c.pos = k at hk ⊢
      cases k <;> first
        | exact hrun
        | exact absurd hk (by decide)

/-- An identifier is a head by itself. -/
theorem runs_head_ident {t : Token} (ht : s.Takes c t x) (hk : t.kind = .ident) :
    (head term r).Runs s c (.ident t.lexeme) x := by
  have hkc : s.kindAt c.pos = .ident := ht.kindAt.trans hk
  have htoken : s.tokens[c.pos]? = some t := ht.token
  refine runs_head.2 (.literal (by rw [hkc]; decide) ?_)
  simp only [literal, runs_bind, runs_current]
  refine ⟨_, _, ⟨rfl, rfl⟩, ?_⟩
  simp only [htoken, hk, runs_bind, runs_pure]
  exact ⟨(), _, (runs_bump hkc (by decide)).2 ⟨t, ht, hk⟩, trivial, rfl⟩

/-! ## Links -/

/-- The rule of an application's arguments. -/
def Applier.rule : Applier → Rule
  | .implicit => .implicitApplier
  | .positional => .positionalApplier

/-- What a link of a chain is read of, by its first token; or none is read, since the token begins none
or the named application that it may begin fails. -/
inductive Linked (term : TermParser) (s : Stream) (r : Restrictions) (target : Term) (c : Cursor) :
    Option Term → Cursor → Prop
  | select {y x : Cursor} {name : String} : s.kindAt c.pos = .dot → bump.Runs s c () y →
      (expectIdent .selector).Runs s y name x → Linked term s r target c (some (.select target name)) x
  | apply (sort : Applier) {y x : Cursor} {as : List Arg} : s.kindAt c.pos = sort.opening →
      bump.Runs s c () y → (argsUntil term sort.closing (Applier.rule sort)).Runs s y as x →
        Linked term s r target c (some (.apply sort target as)) x
  | applyNamed {x : Cursor} {fields : List Field} : s.kindAt c.pos = .braceOpen →
      (speculate (namedApplier term)).Runs s c (some fields) x →
        Linked term s r target c (some (.applyNamed target fields)) x
  | left {x : Cursor} : s.kindAt c.pos = .braceOpen →
      (speculate (namedApplier term)).Runs s c none x → Linked term s r target c none x
  | assign {y x : Cursor} {value : Term} : s.kindAt c.pos = .equals → bump.Runs s c () y →
      (term r).Runs s y value x → Linked term s r target c (some (.assign target value)) x
  | none : continuesChain .free (s.kindAt c.pos) = false → Linked term s r target c none c

theorem runs_link {target : Term} {o : Option Term} :
    (link term r target).Runs s c o x ↔ Linked term s r target c o x := by
  simp only [link, runs_bind, runs_kind]
  constructor
  · rintro ⟨_, _, ⟨rfl, rfl⟩, hrun⟩
    split at hrun
    · rename_i hk
      simp only [runs_bind, runs_pure] at hrun
      obtain ⟨_, y, hbump, name, _, hname, rfl, rfl⟩ := hrun
      exact .select hk hbump hname
    · rename_i hk
      simp only [runs_bind, runs_pure] at hrun
      obtain ⟨_, y, hbump, as, _, has, rfl, rfl⟩ := hrun
      exact .apply .implicit hk hbump has
    · rename_i hk
      simp only [runs_bind, runs_pure] at hrun
      obtain ⟨_, y, hbump, as, _, has, rfl, rfl⟩ := hrun
      exact .apply .positional hk hbump has
    · rename_i hk
      obtain ⟨found, y, hfound, hrun⟩ := runs_bind.1 hrun
      cases found with
      | some fields =>
        obtain ⟨rfl, rfl⟩ := runs_pure.1 hrun
        exact .applyNamed hk hfound
      | none =>
        simp only [runs_bind, runs_cursor, runs_note, runs_pure] at hrun
        obtain ⟨_, _, ⟨rfl, rfl⟩, _, _, rfl, rfl, rfl⟩ := hrun
        exact .left hk hfound
    · rename_i hk
      simp only [runs_bind, runs_pure] at hrun
      obtain ⟨_, y, hbump, value, _, hvalue, rfl, rfl⟩ := hrun
      exact .assign hk hbump hvalue
    · obtain ⟨rfl, rfl⟩ := runs_pure.1 hrun
      refine .none ?_
      cases hk : s.kindAt c.pos <;> first
        | rfl
        | exact absurd hk (by assumption)
  · intro h
    refine ⟨_, _, ⟨rfl, rfl⟩, ?_⟩
    cases h with
    | select hk hbump hname =>
      rw [hk]
      exact runs_bind.2 ⟨(), _, hbump, runs_bind.2 ⟨_, _, hname, runs_pure.2 ⟨rfl, rfl⟩⟩⟩
    | apply sort hk hbump has =>
      rw [hk]
      cases sort <;>
        exact runs_bind.2 ⟨(), _, hbump, runs_bind.2 ⟨_, _, has, runs_pure.2 ⟨rfl, rfl⟩⟩⟩
    | applyNamed hk hfields =>
      rw [hk]
      exact runs_bind.2 ⟨_, _, hfields, runs_pure.2 ⟨rfl, rfl⟩⟩
    | left hk hfields =>
      rw [hk]
      refine runs_bind.2 ⟨none, _, hfields, ?_⟩
      simp only [runs_bind, runs_cursor, runs_note, runs_pure]
      exact ⟨_, _, ⟨rfl, rfl⟩, (), _, rfl, trivial, rfl⟩
    | assign hk hbump hvalue =>
      rw [hk]
      exact runs_bind.2 ⟨(), _, hbump, runs_bind.2 ⟨_, _, hvalue, runs_pure.2 ⟨rfl, rfl⟩⟩⟩
    | none hk =>
      generalize s.kindAt c.pos = k at hk ⊢
      cases k <;> first
        | exact runs_pure.2 ⟨rfl, rfl⟩
        | cases hk

/-! ## Ends of chains -/

/-- A chain ends in front of a token that begins no link. -/
theorem runs_chainWithin_stop {bound : Nat} (h : continuesChain r (s.kindAt c.pos) = false) (t : Term) :
    (chainWithin term r bound t).Runs s c t c := by
  cases bound with
  | zero => exact runs_pure.2 ⟨rfl, rfl⟩
  | succ bound =>
    simp only [chainWithin, runs_bind, runs_kind]
    exact ⟨_, _, ⟨rfl, rfl⟩, by rw [h]; exact runs_pure.2 ⟨rfl, rfl⟩⟩

theorem runs_chain_stop (h : continuesChain r (s.kindAt c.pos) = false) (t : Term) :
    (chain term r t).Runs s c t c :=
  runs_bind.2 ⟨_, c, runs_remaining.2 ⟨rfl, rfl⟩, runs_chainWithin_stop h t⟩

end TermLang.Grammar
