import TermLang.Dump.Format
import TermLang.Proofs.Layouts
import TermLang.Proofs.NestedValues
import TermLang.Proofs.Towers

/-!
# Which programs can be dumped

Three of the formats write every program. The RON format refuses the programs that nest too many values,
and how many values an accepted program nests depends on the nesting limit: with no more than twelve
levels there are never too many, with thirteen or more there can be. Spires are the programs that nest the
most: each storey is the type of a parameter in the storey below it, five values further in, under as many
selections as there are storeys above.
-/

namespace TermLang

open Parse Grammar

/-! ## Spires -/

/-- A declaration with one parameter of the given type. -/
def Term.storey (t : Term) : Term := .signature .struct none [.mk "a" (some (.mk none t))]

/-- A name, with so many storeys below it. -/
def Term.spire : Nat → Term
  | 0 => .ident "a"
  | k + 1 => selects (k + 1) (spire k).storey

/-- The beginning of the yield of a storey. -/
def storeyStart : List Terminal := [.mark .kwStructOf, .mark .braceOpen, .name "a", .mark .colon]

namespace Term

theorem yield_spire (k : Nat) : (spire (k + 1)).yield =
    storeyStart ++ ((spire k).yield ++ ([.mark .braceClose] ++ selectsYield (k + 1))) := by
  simp [spire, storey, storeyStart, yield_selects, yield, nameYield, paramsYield, Param.yield,
    annoYield, Anno.yield, annoStartYield, Terminal.within, Signature.keyword]

theorem lt_length_yield_spire (k : Nat) : k < (spire k).yield.length := by
  induction k with
  | zero => decide
  | succ k ih =>
    simp only [yield_spire, List.length_append, storeyStart, List.length_cons]
    omega

theorem isName_a : Word.IsName "a" :=
  ⟨⟨'a', [], rfl, rfl, List.forall_mem_nil _⟩, by decide⟩

theorem allSpelled_selectsYield (n : Nat) : AllSpelled (selectsYield n) := by
  induction n with
  | zero => exact List.forall_mem_nil _
  | succ n ih => simp [selectsYield, isName_a, ih]

theorem allSpelled_spire (k : Nat) : AllSpelled (spire k).yield := by
  induction k with
  | zero => simp [spire, yield, isName_a]
  | succ k ih => simp [yield_spire, storeyStart, isName_a, ih, allSpelled_selectsYield]

/-! ## How deep spires nest -/

/-- A selection puts one more value around those of its target, which come first. -/
theorem holds_selects {d : Nat} {t : Term} (h : t.tree.Holds d 0) (n : Nat) :
    (selects n t).tree.Holds (n + d) 0 := by
  induction n generalizing d t with
  | zero => rwa [Nat.zero_add]
  | succ n ih =>
    have hselect : (Term.select t "a").tree.Holds (d + 1) 0 :=
      .inside [] [.name "a"] rfl h
    have := ih hselect
    rwa [show n + (d + 1) = n + 1 + d by omega] at this

/-- The entry of the parameters, the parameter, the entry of its annotation, the annotation that is
present and its type: no list and no record is finished before. -/
theorem holds_storey {d : Nat} {t : Term} (h : t.tree.Holds d 0) : t.storey.tree.Holds (d + 5) 0 :=
  .inside [.absent] [] rfl <|
    .inside [] [] rfl <|
    .inside [.name "a"] [] rfl <|
    .inside [] [] rfl <|
    .inside [] [] rfl h

/-- The number of values around the name of a spire. -/
def spireNesting : Nat → Nat
  | 0 => 1
  | k + 1 => k + 1 + (spireNesting k + 5)

theorem holds_spire (k : Nat) : (spire k).tree.Holds (spireNesting k) 0 := by
  induction k with
  | zero => exact .inside [] [] rfl (.here _)
  | succ k ih => exact holds_selects (holds_storey ih) (k + 1)

end Term

/-! ## Reading a spire -/

section

variable {s : Stream} {i j d levels : Nat} {term : TermParser} {r : Restrictions}

/-- No mark of a spread stands at the foot of a spire. -/
theorem kindAt_spire {k : Nat} (h : s.Row i (Term.spire k).yield j) :
    (∀ sort : Spread, s.kindAt i ≠ sort.mark) ∧ s.kindAt i ≠ .eof := by
  have hkind : s.kindAt i = .ident ∨ s.kindAt i = .kwStructOf := by
    cases k with
    | zero => exact .inl h.kindAt
    | succ k =>
      rw [Term.yield_spire] at h
      exact .inr h.kindAt
  rcases hkind with hk | hk <;> rw [hk] <;> exact ⟨fun sort => by cases sort <;> decide, by decide⟩

/-- A declaration whose one parameter is annotated with a term. -/
theorem runs_head_storey {k : Nat} {t : Term} (hstart : s.Row i storeyStart (i + 4))
    (hk : ∀ sort : Spread, s.kindAt (i + 4) ≠ sort.mark)
    (ht : (term .free).Runs s ⟨i + 4, d⟩ t ⟨k, d⟩) (hlt : i + 4 ≤ k)
    (hclose : s.Row k [.mark .braceClose] (k + 1)) :
    (head term r).Runs s ⟨i, d⟩ t.storey ⟨k + 1, d⟩ := by
  obtain ⟨u₁, hu₁, hk₁, hstart⟩ := hstart.takes_mark d
  obtain ⟨u₂, hu₂, hk₂, hstart⟩ := hstart.takes_mark d
  obtain ⟨u₃, hu₃, hk₃, hlex, hstart⟩ := hstart.takes_name d
  obtain ⟨u₄, hu₄, hk₄, -⟩ := hstart.takes_mark d
  have hki : s.kindAt i = .kwStructOf := hu₁.kindAt.trans hk₁
  have hkname : s.kindAt (i + 2) = .ident := hu₃.kindAt.trans hk₃
  have hdecl : (declName .structOf).Runs s ⟨i + 1, d⟩ none ⟨i + 2, d⟩ := by
    have htoken : s.tokens[i + 1]? = some u₂ := hu₂.token
    simp only [declName, runs_bind, runs_current]
    refine ⟨_, _, ⟨rfl, rfl⟩, ?_⟩
    simp only [htoken, hk₂, reduceCtorEq, if_false, runs_bind,
      runs_skip (by decide : Kind.braceOpen ≠ .eof)]
    exact ⟨true, _, .inl ⟨⟨u₂, hu₂, hk₂⟩, rfl⟩, by rw [if_pos rfl]; exact runs_pure.2 ⟨rfl, rfl⟩⟩
  have hanno : (anno term .free).Runs s ⟨i + 3, d⟩ (.mk none t) ⟨k, d⟩ :=
    runs_anno.2 ⟨u₄, ⟨i + 4, d⟩, ⟨i + 4, d⟩, t, (runs_expect (by decide)).2 ⟨hu₄, hk₄⟩, ht,
      .inr ⟨rfl, hk, rfl⟩⟩
  have hparam : (param term).Runs s ⟨i + 2, d⟩ (.mk "a" (some (.mk none t))) ⟨k, d⟩ := by
    simp only [param, runs_bind, runs_pure]
    exact ⟨"a", _, runs_expectIdent.2 ⟨u₃, hu₃, hk₃, hlex⟩, _, _,
      runs_anno?.2 (.inl ⟨hu₄.kindAt.trans hk₄, _, rfl, hanno⟩), rfl, rfl⟩
  have hparams : (paramsUntil term .braceClose (signatureRule .struct)).Runs s ⟨i + 2, d⟩
      [.mk "a" (some (.mk none t))] ⟨k + 1, d⟩ :=
    runs_itemsUntil_single (by decide) (by rw [hkname]; decide) (by rw [hkname]; rfl) hparam
      (by omega) hclose
  refine runs_head.2 (.signature .struct hki ?_)
  simp only [Grammar.signature, runs_bind, runs_pure]
  exact ⟨(), _, (runs_bump hki (by decide)).2 ⟨u₁, hu₁, hk₁⟩, none, _, hdecl, _, _, hparams, rfl, rfl⟩

/-- A spire is read within as many levels as it has storeys, and one for its name. -/
theorem runs_spire {k : Nat} (h : s.Row i (Term.spire k).yield j) (hd : d + k < s.maxDepth)
    (hstop : continuesChain .free (s.kindAt j) = false) (hl : k < levels) :
    (termWithin levels .free).Runs s ⟨i, d⟩ (.spire k) ⟨j, d⟩ := by
  induction k generalizing i j d levels with
  | zero =>
    obtain ⟨levels, rfl⟩ := Nat.exists_eq_succ_of_ne_zero (Nat.ne_zero_of_lt hl)
    obtain rfl : j = i + 1 := h.stop_eq
    exact runs_termOf (by omega) (runs_head_name h) (runs_chainWithin_stop hstop _)
  | succ k ih =>
    obtain ⟨levels, rfl⟩ := Nat.exists_eq_succ_of_ne_zero (Nat.ne_zero_of_lt hl)
    rw [Term.yield_spire] at h
    obtain ⟨i₁, hstart, h⟩ := h.split
    obtain ⟨i₂, hinner, h⟩ := h.split
    obtain ⟨i₃, hclose, hlinks⟩ := h.split
    obtain rfl := hstart.stop_eq
    obtain rfl := hclose.stop_eq
    have hkc : s.kindAt i₂ = .braceClose := hclose.kindAt
    obtain ⟨t, ht, -, -⟩ := hclose.takes d
    have hsize : i₂ < s.tokens.size := (Array.getElem?_eq_some_iff.1 ht.token).1
    refine runs_termOf_selects (runs_head_storey hstart ?_ ?_ ?_ hclose) hsize hlinks (by omega) hstop
    · exact (kindAt_spire hinner).1
    · exact ih hinner (by omega) (by rw [hkc]; rfl) (by omega)
    · exact hinner.stop_eq ▸ Nat.le_add_right _ _

end

/-- A program of one spire. -/
def spireProgram (k : Nat) : Program := ⟨[.spire k]⟩

/-- A spire is accepted where one level more is allowed than it has storeys. -/
theorem parseSource_spire {k m : Nat} (h : k < m) :
    parseSource (spireProgram k).compact m = .ok (spireProgram k) := by
  have hyield : (spireProgram k).yield = (Term.spire k).yield := List.append_nil _
  have hspelled : AllSpelled (spireProgram k).yield := hyield ▸ Term.allSpelled_spire k
  obtain ⟨row, q, hts, hwords⟩ := (spireProgram k).lexes_compact hspelled .start
  have hts : tokenize (spireProgram k).compact = .ok (row ++ [Token.eof q]) := hts
  have hterminals : row.map (·.terminal) = (Term.spire k).yield := by
    have hall : (row ++ [Token.eof q]).map (·.terminal) = (spireProgram k).yield ++ [.mark .eof] :=
      terminals_of_tokenize hts (by
        rw [List.map_append, hwords]
        rfl)
    rw [List.map_append, hyield] at hall
    exact List.append_inj_left' hall rfl
  have hne : ∀ t ∈ row, t.kind ≠ .eof := by
    intro t ht
    rw [← Word.kind_terminal]
    exact (Term.bracketed _).kind_ne_eof _ (hterminals ▸ List.mem_map_of_mem ht)
  have hrow := Stream.Row.of_tokens (s := ⟨(row ++ [Token.eof q]).toArray, m⟩) (i := 0) row
    [Token.eof q] rfl hne
  rw [hterminals, Nat.zero_add] at hrow
  have hlen : row.length = (Term.spire k).yield.length := by rw [← hterminals, List.length_map]
  have hlt := Term.lt_length_yield_spire k
  have heof : (⟨(row ++ [Token.eof q]).toArray, m⟩ : Stream).tokens[row.length]? =
      some (Token.eof q) := by simp
  have hend := Stream.kindAt_of_token heof
  have hterm : (Grammar.term .free).Runs ⟨(row ++ [Token.eof q]).toArray, m⟩ .start (.spire k)
      ⟨row.length, 0⟩ := by
    refine runs_spire hrow ?_ (by rw [hend]; rfl) ?_
    · show 0 + k < m
      omega
    · show k < (row ++ [Token.eof q]).toArray.size + 1 - 0
      simp only [List.size_toArray, List.length_append]
      omega
  exact parseSource_eq_ok_iff.2 ⟨_, hts, (runs_program (kindAt_spire hrow).2 hterm heof rfl).1⟩

/-- The program puts one value more around its spire, and the list of its terms another one. -/
theorem holds_spireProgram (k : Nat) :
    (spireProgram k).tree.Holds (Term.spireNesting k + 2) 0 :=
  .inside [] [] rfl <|
    .inside [] [] rfl (Term.holds_spire k)

/-! ## Dumps -/

/-- Three of the formats write every program, and RON those that nest no more values than are allowed. -/
theorem exists_render_iff {limits : RonLimits} {p : Program} {format : DumpFormat} {width : Nat} :
    (∃ text, p.render format width limits = .ok text) ↔
      (format = .ron → p.tree.Admits limits.refund limits.allowance) := by
  cases format with
  | debug | json | pretty => exact ⟨fun _ hron => (nomatch hron), fun _ => ⟨_, rfl⟩⟩
  | ron =>
    rw [← Tree.isSome_ron?_iff, Program.render]
    cases p.tree.ron? limits with
    | none => simp
    | some text => simp

/-- The terms of a source that was parsed fit in the levels that are allowed. -/
theorem fits_of_parseSource {source : String} {m : Nat} {p : Program}
    (h : parseSource source m = .ok p) : ∀ t ∈ p.terms, t.Fits m := by
  obtain ⟨ts, -, hp⟩ := parseSource_eq_ok_iff.1 h
  exact (program_reads (s := ⟨ts.toArray, m⟩) (c := .start) ⟨hp, rfl⟩).1.fits

/-- Of the RON encoder it is assumed that it allows 128 values to be nested; what it gives back for every
list, tuple and record that is finished is left open. Every program is dumped in all formats but RON, and in
that format just if no value stands inside more than 128 others and what was given back before it. If no more
than twelve levels are allowed, every program that is accepted can be dumped in all formats; under every other
limit, the default one among them, there is one that cannot, whatever the encoder gives back. -/
theorem dumped_iff (limits : RonLimits) (hallowance : limits.allowance = 128) (m : Nat) :
    (∀ (p : Program) (format : DumpFormat) (width : Nat),
      (∃ text, p.render format width limits = .ok text) ↔
        (format = .ron → ∀ depth finished, p.tree.Holds depth finished →
          depth ≤ 128 + limits.refund * finished)) ∧
    ((∀ source p, parseSource source m = .ok p → ∀ format width,
      ∃ text, p.render format width limits = .ok text) ↔ m ≤ 12) := by
  rw [← hallowance]
  refine ⟨fun p format width => exists_render_iff, fun h => ?_, fun hm => ?_⟩
  · by_contra hm
    -- thirteen levels let the spire of twelve storeys pass, in which nothing is finished in front
    have hparse : parseSource (spireProgram 12).compact m = .ok (spireProgram 12) :=
      parseSource_spire (by omega)
    have hadmits := exists_render_iff.1 (h _ _ hparse .ron 0) rfl
    have hdepth := hadmits _ _ (holds_spireProgram 12)
    rw [hallowance, Nat.mul_zero] at hdepth
    exact absurd hdepth (by decide)
  · intro source p hp format width
    have hfits : ∀ t ∈ p.terms, t.Fits 12 := fun t ht => (fits_of_parseSource hp t ht).mono hm
    have hnesting : p.tree.nesting ≤ limits.allowance := hallowance ▸ Program.nesting_le hfits
    exact exists_render_iff.2 fun _ => Tree.admits_of_nesting_le hnesting

/-- The spire of twelve storeys is accepted under the default limit and written as JSON, but not as RON. -/
theorem dumped_iff_spire :
    RonLimits.standard.allowance = 128 ∧
      parseSource (spireProgram 12).compact 256 = .ok (spireProgram 12) ∧
      (∃ text, (spireProgram 12).render .json 0 = .ok text) ∧
      ¬∃ text, (spireProgram 12).render .ron 0 = .ok text := by
  refine ⟨rfl, parseSource_spire (by decide), ?_, fun hron => ?_⟩
  · exact ((dumped_iff .standard rfl 256).1 _ .json 0).2 (nomatch ·)
  · have hdepth := ((dumped_iff .standard rfl 256).1 _ .ron 0).1 hron rfl _ _ (holds_spireProgram 12)
    exact absurd hdepth (by decide)

end TermLang
