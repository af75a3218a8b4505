import TermLang.Proofs.OpenTerms

/-!
# Runs with other levels open

Two runs from one place, with different numbers of levels open, read the same. The parameters of a
function that can be read as the list of a function type are identifiers alone; so with one level left
they can be read so wherever they can be read as parameters.
-/

namespace TermLang.Grammar

open Parse

variable {s : Stream} {c c' x x' : Cursor} {r : Restrictions}

/-- Runs of a parser from one place, with whatever levels open, read the same, if the parser answers alike
where levels are missing. -/
theorem same_of_mimics {α : Type} {p : Parse α} {a b : α}
    (hp : ∀ {lift : Nat} {y y' : Cursor}, (Window.self s lift).Sees .whole y'.pos y y' →
      ∃ lo, p.Mimics (Window.self s lift) ((Window.self s lift).Sees .whole lo) y y' p)
    (hpos : c.pos = c'.pos) (hle : c.pos ≤ s.tokens.size) (h : p.Runs s c a x) (h' : p.Runs s c' b x') :
    a = b ∧ x.pos = x'.pos := by
  have lower : ∀ {c c' x x' : Cursor} {a b : α}, c.pos = c'.pos → c'.pos ≤ s.tokens.size →
      c'.depth ≤ c.depth → p.Runs s c a x → p.Runs s c' b x' → a = b ∧ x.pos = x'.pos := by
    intro c c' x x' a b hpos hle hdepth h h'
    have hsees : (Window.self s (c.depth - c'.depth)).Sees .whole c'.pos c c' :=
      sees_self hpos (by omega) hle
    obtain ⟨lo, hm⟩ := hp hsees
    obtain ⟨rfl, rfl⟩ := (runs_of_mimics h hm).unique h'
    exact ⟨rfl, rfl⟩
  obtain hd | hd := Nat.le_total c'.depth c.depth
  · exact lower hpos (hpos ▸ hle) hd h h'
  · obtain ⟨rfl, hx⟩ := lower hpos.symm hle hd h' h
    exact ⟨rfl, hx.symm⟩

/-- An identifier that no link follows is a term, whatever levels are open. -/
theorem runs_ident {i : Nat} (hk : s.kindAt i = .ident)
    (hnext : continuesChain r (s.kindAt (i + 1)) = false) :
    ∃ name, ∀ d < s.maxDepth, (term r).Runs s ⟨i, d⟩ (.ident name) ⟨i + 1, d⟩ := by
  obtain ⟨t, htoken, hkt⟩ := Stream.exists_token_of_kindAt hk (by decide)
  have hlt := (Array.getElem?_eq_some_iff.1 htoken).1
  refine ⟨t.lexeme, fun d hd => ?_⟩
  have hhead : (head term r).Runs s ⟨i, d + 1⟩ (.ident t.lexeme) ⟨i + 1, d + 1⟩ :=
    runs_head_ident ⟨htoken, by rw [hkt]; decide, rfl⟩ hkt
  exact (runs_term (Nat.le_of_lt hlt)).2 ⟨hd, _, _, _, hhead, .done hnext, rfl⟩

/-! ## Lists -/

/-- What a parameter reads besides its name begins with a colon. -/
theorem kindAt_of_param {p : Param} (h : (param term).Runs s c p x) :
    s.kindAt c.pos = .ident ∧ (s.kindAt (c.pos + 1) = .colon ∨ x = { c with pos := c.pos + 1 }) := by
  simp only [param, runs_bind, runs_pure] at h
  obtain ⟨name, y, hname, a, _, ha, -, rfl⟩ := h
  obtain ⟨t, htake, hkt, -⟩ := runs_expectIdent.1 hname
  obtain rfl := htake.next
  refine ⟨htake.kindAt.trans hkt, ?_⟩
  obtain ⟨hk, -⟩ | ⟨-, -, rfl⟩ := runs_anno?.1 ha
  · exact .inl hk
  · exact .inr rfl

/-- In a list there is another item, or its end. -/
theorem kindAt_of_items {α : Type} {close : Kind} {begins : Kind → Bool} {rule : Rule}
    {expected : List Kind} {item : Parse α} {n : Nat} {as : List α} (he : close ≠ .eof)
    (h : (itemsWithin close begins rule expected item n).Runs s c as x) :
    s.kindAt c.pos = close ∨ begins (s.kindAt c.pos) = true := by
  cases n with
  | zero => exact absurd h not_runs_reject
  | succ n =>
    rw [runs_itemsWithin_succ he] at h
    obtain ⟨-, t, htake, hk⟩ | ⟨-, hb, -⟩ := h
    · exact .inl (htake.kindAt.trans hk)
    · exact .inr hb

/-- A list that is read as parameters, and with other levels open as terms, is read as terms with a level
left. -/
theorem types_of_params {rule rule' : Rule} {expected expected' : List Kind} {m n : Nat}
    {ps : List Param} {ts : List Term}
    (hps : (itemsWithin .parenClose isIdent rule expected (param term) n).Runs s c ps x)
    (hts : (itemsWithin .parenClose startsTerm rule' expected' (term .free) m).Runs s c' ts x')
    (hpos : c.pos = c'.pos) (hdepth : c.depth < s.maxDepth) :
    (itemsWithin .parenClose startsTerm rule' expected' (term .free) m).Runs s c ts x := by
  have he : Kind.parenClose ≠ .eof := by decide
  induction m generalizing n c c' ps ts with
  | zero => exact absurd hts not_runs_reject
  | succ m ih =>
    cases n with
    | zero => exact absurd hps not_runs_reject
    | succ n =>
      rw [runs_itemsWithin_succ he] at hps hts ⊢
      obtain ⟨rfl, t, htake, hk⟩ | ⟨hne, -, p, y, others, rfl, hp, hothers⟩ := hps
      · obtain ⟨rfl, -⟩ | ⟨hne, -⟩ := hts
        · exact .inl ⟨rfl, t, htake, hk⟩
        · exact absurd (hpos ▸ htake.kindAt.trans hk) hne
      · obtain ⟨-, t, htake, hk⟩ | ⟨-, hstart, t, y', us, rfl, ht, hus⟩ := hts
        · exact absurd (hpos ▸ htake.kindAt.trans hk) hne
        · obtain ⟨hident, hcolon⟩ := kindAt_of_param hp
          have hnext : continuesChain .free (s.kindAt (c.pos + 1)) = false := by
            obtain hk | rfl := hcolon
            · rw [hk]
              rfl
            · obtain hk | hb := kindAt_of_items he hothers
              · simp only at hk
                rw [hk]
                rfl
              · simp only [isIdent, decide_eq_true_eq] at hb
                rw [hb]
                rfl
          obtain ⟨name, hname⟩ := runs_ident hident hnext
          have hle : c'.pos ≤ s.tokens.size := Nat.le_of_lt (start_lt_of_term ht)
          have ht' : (term .free).Runs s c' (.ident name) ⟨c.pos + 1, c'.depth⟩ := by
            rw [hpos]
            rw [hpos] at hname
            exact hname c'.depth ((runs_term hle).1 ht).1
          obtain ⟨rfl, rfl⟩ := ht.unique ht'
          obtain hk | rfl := hcolon
          · -- the colon of an annotation begins no term
            obtain hk' | hb := kindAt_of_items he hus
            · exact absurd (hk.symm.trans hk') (by decide)
            · simp only [hk] at hb
              exact absurd hb (by decide)
          · refine .inr ⟨hpos ▸ hne, hpos ▸ hstart, .ident name, _, us, rfl, hname c.depth hdepth, ?_⟩
            exact ih hothers hus rfl hdepth

/-- The list of a function that can be read as the list of a function type, with other levels open, is read
so with a level left. -/
theorem typeList_of_params {u : Unit} {y z : Cursor} {ps : List Param} {ts : List Term}
    (hk : s.kindAt c.pos = .parenOpen) (hbump : bump.Runs s c u y)
    (hps : (paramsUntil term .parenClose .fun_).Runs s y ps z)
    (hts : (typeList term).Runs s c' ts x') (hpos : c.pos = c'.pos) (hdepth : c.depth < s.maxDepth) :
    (typeList term).Runs s c ts z := by
  simp only [typeList, termsUntil, itemsUntil, runs_bind, runs_remaining] at hts ⊢
  obtain ⟨mark, y', hopen, _, _, ⟨rfl, rfl⟩, hitems⟩ := hts
  simp only [paramsUntil, itemsUntil, runs_bind, runs_remaining] at hps
  obtain ⟨_, _, ⟨rfl, rfl⟩, hps⟩ := hps
  obtain ⟨t, htake, hkt⟩ := (runs_bump hk (by decide)).1 hbump
  obtain ⟨htake', hk'⟩ := (runs_expect (by decide)).1 hopen
  obtain rfl := htake.next
  obtain rfl := htake'.next
  refine ⟨t, _, (runs_expect (by decide)).2 ⟨htake, hkt⟩, _, _, ⟨rfl, rfl⟩, ?_⟩
  have hitems' := types_of_params hps hitems (by simp only; omega) hdepth
  rwa [← hpos] at hitems'

end TermLang.Grammar
