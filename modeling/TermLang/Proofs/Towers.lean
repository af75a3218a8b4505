import TermLang.Proofs.ReadingTerms

/-!
# How high an accepted term is

The nesting limit bounds the height of accepted terms, but not by itself: under a limit of `m` levels
a term is up to `m * (m + 1) / 2` terms high, and that height is met. Towers meet it: each storey is
a block around the storey above it, under as many selections as there are storeys in the block. While
the links of a storey are read, the levels of the storeys in it are free again.
-/

namespace TermLang

open Parse Grammar

/-! ## Towers -/

/-- The selections of so many storeys, folded onto a term. -/
def Term.selects : Nat → Term → Term
  | 0, t => t
  | n + 1, t => selects n (.select t "a")

/-- The yield of so many selections. -/
def selectsYield : Nat → List Terminal
  | 0 => []
  | n + 1 => .mark .dot :: .name "a" :: selectsYield n

theorem length_selectsYield (n : Nat) : (selectsYield n).length = 2 * n := by
  induction n with
  | zero => rfl
  | succ n ih => rw [selectsYield, List.length_cons, List.length_cons, ih]; omega

/-- A name, with so many storeys around it. -/
def Term.tower : Nat → Term
  | 0 => .ident "a"
  | k + 1 => selects (k + 1) (.block [tower k])

namespace Term

theorem yield_selects (n : Nat) (t : Term) : (selects n t).yield = t.yield ++ selectsYield n := by
  induction n generalizing t with
  | zero => simp [selects, selectsYield]
  | succ n ih => simp [selects, selectsYield, ih, yield]

theorem yield_tower (k : Nat) :
    (tower (k + 1)).yield =
      [.mark .kwBlock, .mark .braceOpen] ++
        ((tower k).yield ++ ([.mark .braceClose] ++ selectsYield (k + 1))) := by
  simp [tower, yield_selects, yield, termsYield, Terminal.within]

theorem lt_length_yield_tower (k : Nat) : k < (tower k).yield.length := by
  induction k with
  | zero => decide
  | succ k ih =>
    simp only [yield_tower, List.length_append, List.length_cons]
    omega

theorem path_selects {n p : Nat} {t : Term} (h : t.Path p) : (selects n t).Path (n + p) := by
  induction n generalizing t p with
  | zero => rwa [Nat.zero_add]
  | succ n ih =>
    have hp : (Term.select t "a").Path (p + 1) := .down (by simp [parts, target?]) h
    have := ih hp
    rwa [show n + (p + 1) = n + 1 + p by omega] at this

/-- The way from the ground of a tower up to its name. -/
theorem path_tower (k : Nat) : (tower k).Path (levelSum (k + 1)) := by
  induction k with
  | zero => exact .here _
  | succ k ih =>
    have hblock : (Term.block [tower k]).Path (levelSum (k + 1) + 1) :=
      .down (by simp [parts, target?, inner]) ih
    have := path_selects (n := k + 1) hblock
    rw [tower, levelSum]
    rwa [show levelSum (k + 1) + (k + 1 + 1) = k + 1 + (levelSum (k + 1) + 1) by omega]

end Term

/-! ## Reading a tower -/

section

variable {s : Stream} {i j d levels bound : Nat} {term : TermParser} {r : Restrictions}

/-- A selection opens one level for the links after it. -/
theorem runs_chainWithin_selects {n : Nat} {t : Term} (h : s.Row i (selectsYield n) j)
    (hstop : continuesChain r (s.kindAt j) = false) (hd : d + n ≤ s.maxDepth) (hb : n ≤ bound) :
    (chainWithin term r bound t).Runs s ⟨i, d⟩ (.selects n t) ⟨j, d⟩ := by
  induction n generalizing i d bound t with
  | zero =>
    cases h with
    | nil => exact runs_chainWithin_stop hstop t
  | succ n ih =>
    obtain ⟨bound, rfl⟩ := Nat.exists_eq_add_of_le' hb
    obtain ⟨u, hu, hku, h⟩ := h.takes_mark (d + 1)
    obtain ⟨v, hv, hkv, hlex, h⟩ := h.takes_name (d + 1)
    have hk : s.kindAt i = .dot := hu.kindAt.trans hku
    have hrest : (chainWithin term r (bound + n) (.select t "a")).Runs s ⟨i + 2, d + 1⟩
        (.selects n (.select t "a")) ⟨j, d + 1⟩ := ih h (by omega) (by omega)
    show (chainWithin term r (bound + n + 1) t).Runs _ _ _ _
    simp only [chainWithin, runs_bind, runs_kind]
    refine ⟨_, _, ⟨rfl, rfl⟩, ?_⟩
    simp only [hk, continuesChain, if_true, runs_bind, runs_descend]
    refine ⟨(), _, ⟨by show d < s.maxDepth; omega, rfl⟩, some (.select t "a"), ⟨i + 2, d + 1⟩,
      ?_, ?_⟩
    · exact runs_link.2 (.select hk ((runs_bump hk (by decide)).2 ⟨u, hu, hku⟩)
        (runs_expectIdent.2 ⟨v, hv, hkv, hlex⟩))
    · simp only [runs_bind, runs_ascend, runs_pure]
      exact ⟨_, _, hrest, (), _, rfl, rfl, rfl⟩

/-- A head and the links after it, one level up. -/
theorem runs_termOf {k : Nat} {t u : Term} (hd : d < s.maxDepth)
    (hhead : (head term r).Runs s ⟨i, d + 1⟩ t ⟨k, d + 1⟩)
    (hchain : (chainWithin term r (s.remaining k) t).Runs s ⟨k, d + 1⟩ u ⟨j, d + 1⟩) :
    (termOf term r).Runs s ⟨i, d⟩ u ⟨j, d⟩ := by
  simp only [termOf, chain, runs_bind, runs_descend, runs_remaining, runs_ascend, runs_pure]
  exact ⟨(), _, ⟨hd, rfl⟩, _, _, hhead, _, _, ⟨_, _, ⟨rfl, rfl⟩, hchain⟩, (), ⟨j, d⟩, rfl, rfl, rfl⟩

/-- A head under some selections, one level up. -/
theorem runs_termOf_selects {k n : Nat} {t : Term}
    (hhead : (head term r).Runs s ⟨i, d + 1⟩ t ⟨k, d + 1⟩) (hk : k ≤ s.tokens.size)
    (hlinks : s.Row k (selectsYield n) j) (hd : d + n < s.maxDepth)
    (hstop : continuesChain r (s.kindAt j) = false) :
    (termOf term r).Runs s ⟨i, d⟩ (.selects n t) ⟨j, d⟩ := by
  refine runs_termOf (by omega) hhead (runs_chainWithin_selects hlinks hstop (by omega) ?_)
  have hle := hlinks.stop_le hk
  have hlen := hlinks.stop_eq
  rw [length_selectsYield] at hlen
  unfold Stream.remaining
  omega

/-- The token at the foot of a tower begins a term. -/
theorem startsTerm_tower {k : Nat} (h : s.Row i (Term.tower k).yield j) :
    startsTerm (s.kindAt i) = true ∧ s.kindAt i ≠ .braceClose ∧ s.kindAt i ≠ .eof := by
  cases k with
  | zero => rw [h.kindAt]; decide
  | succ k =>
    rw [Term.yield_tower] at h
    rw [h.kindAt]
    decide

/-- A list of one item. -/
theorem runs_itemsUntil_single {α : Type} {close : Kind} {begins : Kind → Bool} {rule : Rule}
    {expected : List Kind} {item : Parse α} {k : Nat} {a : α} (he : close ≠ .eof)
    (hne : s.kindAt i ≠ close) (hb : begins (s.kindAt i) = true) (ha : item.Runs s ⟨i, d⟩ a ⟨k, d⟩)
    (hi : i ≤ k) (hclose : s.Row k [.mark close] (k + 1)) :
    (itemsUntil close begins rule expected item).Runs s ⟨i, d⟩ [a] ⟨k + 1, d⟩ := by
  obtain ⟨w, hw, hkw, -⟩ := hclose.takes_mark d
  have hsize : k < s.tokens.size := (Array.getElem?_eq_some_iff.1 hw.token).1
  obtain ⟨n, hn⟩ := Nat.exists_eq_add_of_le' (show 2 ≤ s.remaining i by
    unfold Stream.remaining
    omega)
  simp only [itemsUntil, runs_bind, runs_remaining]
  refine ⟨_, _, ⟨hn, rfl⟩, (runs_itemsWithin_succ he).2 (.inr ⟨hne, hb, a, _, [], rfl, ha, ?_⟩)⟩
  exact (runs_itemsWithin_succ he).2 (.inl ⟨rfl, w, hw, hkw⟩)

/-- A block that holds one term. -/
theorem runs_head_block {i' : Nat} {t : Term}
    (hopen : s.Row i [.mark .kwBlock, .mark .braceOpen] (i + 2))
    (hk : startsTerm (s.kindAt (i + 2)) = true ∧ s.kindAt (i + 2) ≠ .braceClose)
    (ht : (term .free).Runs s ⟨i + 2, d⟩ t ⟨i', d⟩) (hi : i + 2 ≤ i')
    (hclose : s.Row i' [.mark .braceClose] (i' + 1)) :
    (head term r).Runs s ⟨i, d⟩ (.block [t]) ⟨i' + 1, d⟩ := by
  obtain ⟨u, hu, hku, hopen⟩ := hopen.takes_mark d
  obtain ⟨v, hv, hkv, -⟩ := hopen.takes_mark d
  have hki : s.kindAt i = .kwBlock := hu.kindAt.trans hku
  refine runs_head.2 (.block hki ((runs_bump hki (by decide)).2 ⟨u, hu, hku⟩) ?_)
  simp only [blocked, runs_bind]
  exact ⟨v, ⟨i + 2, d⟩, (runs_expect (by decide)).2 ⟨hv, hkv⟩,
    runs_itemsUntil_single (by decide) hk.2 hk.1 ht hi hclose⟩

/-- A name as a head. -/
theorem runs_head_name {text : String} (h : s.Row i [.name text] (i + 1)) :
    (head term r).Runs s ⟨i, d⟩ (.ident text) ⟨i + 1, d⟩ := by
  obtain ⟨t, ht, hk, rfl, -⟩ := h.takes_name d
  exact runs_head_ident ht hk

/-- A tower is read within as many levels as it has storeys, and one for its name. -/
theorem runs_tower {k : Nat} (h : s.Row i (Term.tower k).yield j) (hd : d + k < s.maxDepth)
    (hstop : continuesChain .free (s.kindAt j) = false) (hl : k < levels) :
    (termWithin levels .free).Runs s ⟨i, d⟩ (.tower k) ⟨j, d⟩ := by
  induction k generalizing i j d levels with
  | zero =>
    obtain ⟨levels, rfl⟩ := Nat.exists_eq_succ_of_ne_zero (Nat.ne_zero_of_lt hl)
    obtain rfl : j = i + 1 := h.stop_eq
    exact runs_termOf (by omega) (runs_head_name h) (runs_chainWithin_stop hstop _)
  | succ k ih =>
    obtain ⟨levels, rfl⟩ := Nat.exists_eq_succ_of_ne_zero (Nat.ne_zero_of_lt hl)
    rw [Term.yield_tower] at h
    obtain ⟨i₁, hopen, h⟩ := h.split
    obtain ⟨i₂, hinner, h⟩ := h.split
    obtain ⟨i₃, hclose, hlinks⟩ := h.split
    obtain rfl := hopen.stop_eq
    obtain rfl := hclose.stop_eq
    have hkc : s.kindAt i₂ = .braceClose := hclose.kindAt
    obtain ⟨t, ht, -, -⟩ := hclose.takes d
    have hsize : i₂ < s.tokens.size := (Array.getElem?_eq_some_iff.1 ht.token).1
    refine runs_termOf_selects (runs_head_block hopen ?_ ?_ ?_ hclose) hsize hlinks (by omega) hstop
    · exact ⟨(startsTerm_tower hinner).1, (startsTerm_tower hinner).2.1⟩
    · exact ih hinner (by omega) (by rw [hkc]; rfl) (by omega)
    · exact hinner.stop_eq ▸ Nat.le_add_right _ _

end

/-! ## Heights of accepted terms -/

/-- The tokens of a tower and the end of the input. -/
def towerTokens (k : Nat) : List Token :=
  (Term.tower k).yield.map (fun y => Token.ofWord y.word) ++ [Token.eof .start]

/-- Every terminal of a tower is read from the word that is written for it. -/
theorem terminal_word_tower (k : Nat) :
    ∀ y ∈ (Term.tower k).yield, y.word.terminal = y ∧ y.kind ≠ .eof := by
  have hselects : ∀ n, ∀ y ∈ selectsYield n, y.word.terminal = y ∧ y.kind ≠ .eof := by
    intro n
    induction n with
    | zero => simp [selectsYield]
    | succ n ih =>
      refine List.forall_mem_cons.2 ⟨⟨rfl, by decide⟩, List.forall_mem_cons.2 ⟨⟨rfl, by decide⟩, ih⟩⟩
  induction k with
  | zero => exact List.forall_mem_cons.2 ⟨⟨rfl, by decide⟩, nofun⟩
  | succ k ih =>
    rw [Term.yield_tower]
    refine List.forall_mem_append.2 ⟨?_, List.forall_mem_append.2 ⟨ih,
      List.forall_mem_append.2 ⟨?_, hselects (k + 1)⟩⟩⟩
    · exact List.forall_mem_cons.2 ⟨⟨rfl, by decide⟩, List.forall_mem_cons.2 ⟨⟨rfl, by decide⟩, nofun⟩⟩
    · exact List.forall_mem_cons.2 ⟨⟨rfl, by decide⟩, nofun⟩

theorem map_terminal_towerTokens (k : Nat) :
    ((Term.tower k).yield.map fun y => Token.ofWord y.word).map (·.terminal) =
      (Term.tower k).yield := by
  rw [List.map_map]
  exact (List.map_congr_left fun y hy => (terminal_word_tower k y hy).1).trans (List.map_id _)

theorem row_towerTokens (k m : Nat) :
    Stream.Row ⟨(towerTokens k).toArray, m⟩ 0 (Term.tower k).yield (Term.tower k).yield.length := by
  have h := Stream.Row.of_tokens (s := ⟨(towerTokens k).toArray, m⟩) (i := 0)
    ((Term.tower k).yield.map fun y => Token.ofWord y.word) [Token.eof .start] rfl ?_
  · rwa [map_terminal_towerTokens, List.length_map, Nat.zero_add] at h
  · intro t ht
    obtain ⟨y, hy, rfl⟩ := List.mem_map.1 ht
    have hk : y.word.kind = y.kind := by
      rw [← Word.kind_terminal, (terminal_word_tower k y hy).1]
    show y.word.kind ≠ .eof
    rw [hk]
    exact (terminal_word_tower k y hy).2

/-- A term that is read up to the end of the input is a program. -/
theorem runs_program {s : Stream} {t : Term} {n : Nat} (hstart : s.kindAt 0 ≠ .eof)
    (ht : (Grammar.term .free).Runs s .start t ⟨n, 0⟩) {e : Token} (he : s.tokens[n]? = some e)
    (hk : e.kind = .eof) : program.Runs s .start ⟨[t]⟩ ⟨n, 0⟩ := by
  have hend : s.kindAt n = .eof := (Stream.kindAt_of_token he).trans hk
  have hsize : n < s.tokens.size := (Array.getElem?_eq_some_iff.1 he).1
  obtain ⟨b, hb⟩ := Nat.exists_eq_add_of_le' (show 2 ≤ s.remaining 0 by
    unfold Stream.remaining
    omega)
  have hterms : (topTermsWithin (s.remaining 0)).Runs s .start [t] ⟨n, 0⟩ := by
    simp only [hb, topTermsWithin, atEnd, runs_bind, runs_at?]
    refine ⟨_, _, ⟨rfl, rfl⟩, ?_⟩
    simp only [Cursor.start, hstart, decide_false, Bool.false_eq_true, if_false, runs_bind, runs_at?,
      runs_pure]
    exact ⟨_, _, ht, [], _, ⟨_, _, ⟨rfl, rfl⟩, by simp [hend, runs_pure]⟩, rfl, rfl⟩
  simp only [program, runs_bind, runs_remaining, runs_expect_eof, runs_pure]
  exact ⟨_, _, ⟨rfl, rfl⟩, _, _, hterms, _, _, ⟨he, hk, rfl⟩, rfl, rfl⟩

/-- The limit lets a tower of one storey less pass. -/
theorem parseProgram_towerTokens (k : Nat) :
    parseProgram (towerTokens k) (k + 1) = .ok ⟨[.tower k]⟩ := by
  have hrow := row_towerTokens k (k + 1)
  have hlen := Term.lt_length_yield_tower k
  have heof : (⟨(towerTokens k).toArray, k + 1⟩ : Stream).tokens[(Term.tower k).yield.length]? =
      some (Token.eof .start) := by
    simp [towerTokens]
  have hend := Stream.kindAt_of_token heof
  have hsize : (Term.tower k).yield.length < (towerTokens k).toArray.size :=
    (Array.getElem?_eq_some_iff.1 heof).1
  have hterm : (Grammar.term .free).Runs ⟨(towerTokens k).toArray, k + 1⟩ .start (.tower k)
      ⟨(Term.tower k).yield.length, 0⟩ := by
    refine runs_tower hrow ?_ (by rw [hend]; rfl) ?_
    · show 0 + k < k + 1
      omega
    · show k < (towerTokens k).toArray.size + 1 - 0
      omega
  exact (runs_program (startsTerm_tower hrow).2.2 hterm heof rfl).1

/-- A way of `n` terms through a term is one of each smaller number as well. -/
theorem Term.Path.shorten {t : Term} {n : Nat} (h : t.Path n) :
    ∀ {k : Nat}, 1 ≤ k → k ≤ n → t.Path k := by
  induction h with
  | here t =>
    intro k h₁ h₂
    obtain rfl : k = 1 := by omega
    exact .here t
  | @down t u n hu _ ih =>
    intro k h₁ h₂
    by_cases hk : k = 1
    · subst hk
      exact .here t
    · obtain ⟨k, rfl⟩ := Nat.exists_eq_add_of_le' h₁
      exact .down hu (ih (by omega) (by omega))

/-- Under a limit of `m` levels there are accepted terms with paths of up to `m * (m + 1) / 2` terms,
and no longer ones. So the limit by itself bounds the paths only if it allows no more than one
level. -/
theorem accepted_path_iff (m : Nat) :
    (∀ n, (∃ tokens p, parseProgram tokens m = .ok p ∧ ∃ t ∈ p.terms, t.Path n) ↔
      1 ≤ n ∧ n ≤ m * (m + 1) / 2) ∧
    ((∀ tokens p, parseProgram tokens m = .ok p → ∀ t ∈ p.terms, ∀ n, t.Path n → n ≤ m) ↔
      m ≤ 1) := by
  have hiff : ∀ n, (∃ tokens p, parseProgram tokens m = .ok p ∧ ∃ t ∈ p.terms, t.Path n) ↔
      1 ≤ n ∧ n ≤ m * (m + 1) / 2 := by
    intro n
    constructor
    · rintro ⟨tokens, p, h, t, ht, hp⟩
      have hfits := (program_reads (s := ⟨tokens.toArray, m⟩) (c := .start) ⟨h, rfl⟩).1.fits t ht
      refine ⟨?_, hfits.path_le hp⟩
      cases hp <;> omega
    · rintro ⟨h₁, hn⟩
      cases m with
      | zero => omega
      | succ k =>
        refine ⟨_, _, parseProgram_towerTokens k, _, List.mem_singleton_self _, ?_⟩
        exact (Term.path_tower k).shorten h₁ (by rwa [Term.levelSum_eq])
  refine ⟨hiff, ?_, ?_⟩
  · intro h
    by_contra hm
    have htwo : m + 1 ≤ m * (m + 1) / 2 := by
      rw [Nat.le_div_iff_mul_le two_pos, Nat.mul_comm (m + 1)]
      exact Nat.mul_le_mul_right _ (by omega)
    obtain ⟨tokens, p, hp, t, ht, hpath⟩ := (hiff (m + 1)).2 ⟨by omega, htwo⟩
    have := h tokens p hp t ht _ hpath
    omega
  · intro hm tokens p hp t ht n hpath
    have hn := ((hiff n).1 ⟨tokens, p, hp, t, ht, hpath⟩).2
    rcases Nat.le_one_iff_eq_zero_or_eq_one.1 hm with rfl | rfl
    · exact hn
    · exact hn

/-- `block { a }.a` under a limit of two levels is three terms high. -/
theorem accepted_path_three :
    parseProgram (towerTokens 1) 2 = .ok ⟨[.select (.block [.ident "a"]) "a"]⟩ ∧
    (Term.select (.block [.ident "a"]) "a").Path 3 ∧
    ∃ tokens p, parseProgram tokens 2 = .ok p ∧ ∃ t ∈ p.terms, t.Path 3 :=
  ⟨parseProgram_towerTokens 1, Term.path_tower 1, ((accepted_path_iff 2).1 3).2 (by decide)⟩

end TermLang
