import TermLang.Proofs.Lossless
import TermLang.Proofs.SeamTerms

/-!
# Programs one after the other

A program before a term that begins with neither `(` nor `[` is read as if nothing followed: at every
place where a term could go on, the first token of what follows decides as the end of the input does. What
follows is then read as it is by itself.
-/

namespace TermLang

open Grammar Parse

/-! ## Terms at the top level -/

theorem mimics_topTermsWithin {w : Window} {z : Zone} : ∀ (bound bound' : Nat) {lo : Nat}
    {c c' : Cursor}, w.Sees z lo c c' → w.limit z < c'.pos + bound → w.limit z < c'.pos + bound' →
      (topTermsWithin bound).Mimics w (w.Sees z lo) c c' (topTermsWithin bound') := by
  intro bound
  induction bound with
  | zero =>
    intro bound' lo c c' h hlt _
    have := h.pos_le
    omega
  | succ bound ih =>
    intro bound' lo c c' h hlt hlt'
    obtain ⟨bound', rfl⟩ : ∃ n, bound' = n + 1 := by
      have := h.pos_le
      exact ⟨bound' - 1, by omega⟩
    refine mimics_at? h .eof ?_
    split
    · exact mimics_pure [] h
    · refine (mimics_term h .free).bind fun t x x' _ hx => ?_
      have hle := h.le_pos
      have hpos := hx.le_pos
      refine (ih bound' hx (by omega) (by omega)).bind fun ts y y' _ hy => ?_
      exact mimics_pure (t :: ts) (hy.mono (by omega))

/-- The end of the input, expected where the whole rest of the streams is in view. -/
theorem mimics_expect_eof {w : Window} {lo : Nat} {c c' : Cursor} (h : w.Sees .whole lo c c')
    (rule : Rule) : (expect .eof rule).Mimics w (w.Sees .whole lo) c c' (expect .eof rule) := by
  refine mimics_after (runs_current.2 ⟨h.token_eq_of_whole, rfl⟩) (runs_current.2 ⟨rfl, rfl⟩) ?_
  split
  · rename_i t htok
    split
    · rename_i hk
      have hk' : w.snd.kindAt c'.pos = .eof := (Stream.kindAt_of_token htok).trans hk
      have stays : ∀ {s : Stream} {x : Cursor}, s.kindAt x.pos = .eof → bump.Runs s x () x :=
        fun hx => ⟨rfl, by rw [bump, if_pos hx]⟩
      exact mimics_after (stays (h.kindAt_eq.trans hk')) (stays hk') (mimics_pure t h)
    · exact mimics_reject h rule _
  · exact mimics_reject h rule _

/-! ## Before the seam -/

/-- Where no term goes beyond the seam, all terms before it are carried over. -/
theorem carryTerms_of_confined {w : Window} {stop : Nat} (hw : w.Seam stop)
    (hconf : ∀ {r : Restrictions} {c x : Cursor} {t : Term}, (term r).Runs w.fst c t x →
      c.pos ≤ stop + w.shift → x.pos ≤ stop + w.shift) :
    ∀ start, CarryTerms w stop (· ≤ stop + w.shift) start := by
  refine carryTerms_of_rereads hw (fun _ => id) fun start {c c' x y first t} _ h _ hfirst hy => ?_
  have := h.pos_eq
  have := h.le_stop
  exact absurd (.here (hconf hfirst (by omega))) hy

/-- A value made of what a parser answers. -/
theorem result_bind_pure {α β : Type} (p : Parse α) (g : α → β) (s : Stream) (c : Cursor) :
    ((p >>= fun a => pure (g a)) s c).result = (p s c).result.map g ∧
      ((p >>= fun a => pure (g a)) s c).cursor = (p s c).cursor := by
  cases h : (p s c).result with
  | ok a =>
    obtain ⟨hr, hc⟩ := bind_of_ok (f := fun a => (pure (g a) : Parse β)) h
    exact ⟨hr.trans rfl, hc⟩
  | error e =>
    refine ⟨bind_of_error h, ?_⟩
    show (Parse.bind p _ s c).cursor = _
    unfold Parse.bind
    simp only [h]

/-- The terms up to the seam are carried over, and then what follows is read. -/
theorem topTermsWithin_of_seam {w : Window} {stop : Nat} (hw : w.Seam stop)
    (hcarry : ∀ start, CarryTerms w stop (· ≤ stop + w.shift) start) (k : Nat) :
    ∀ (bound : Nat) {c c' x : Cursor} {ts : List Term}, w.Abreast stop c c' →
      (topTermsWithin bound).Runs w.fst c ts x → x.pos = stop + w.shift →
        ∃ x', w.Abreast stop x x' ∧
          (topTermsWithin (ts.length + k) w.snd c').result =
            (topTermsWithin k w.snd x').result.map (ts ++ ·) ∧
          (topTermsWithin (ts.length + k) w.snd c').cursor = (topTermsWithin k w.snd x').cursor := by
  have nothing : ∀ {c c' : Cursor}, w.Abreast stop c c' → ∃ x', w.Abreast stop c x' ∧
      (topTermsWithin (([] : List Term).length + k) w.snd c').result =
        (topTermsWithin k w.snd x').result.map (([] : List Term) ++ ·) ∧
      (topTermsWithin (([] : List Term).length + k) w.snd c').cursor =
        (topTermsWithin k w.snd x').cursor := by
    intro c c' h
    refine ⟨c', h, ?_, by rw [List.length_nil, Nat.zero_add]⟩
    rw [List.length_nil, Nat.zero_add]
    cases (topTermsWithin k w.snd c').result <;> rfl
  intro bound
  induction bound with
  | zero =>
    intro c c' x ts h hrun _
    obtain ⟨rfl, rfl⟩ := runs_pure.1 hrun
    exact nothing h
  | succ bound ih =>
    intro c c' x ts h hrun hx
    simp only [topTermsWithin, atEnd, runs_bind, runs_at?] at hrun
    obtain ⟨_, _, ⟨rfl, rfl⟩, hrun⟩ := hrun
    split at hrun
    · obtain ⟨rfl, rfl⟩ := runs_pure.1 hrun
      exact nothing h
    · rename_i hk
      simp only [runs_bind, runs_pure] at hrun
      obtain ⟨t, y, hterm, others, _, hothers, rfl, rfl⟩ := hrun
      have hlt := lt_of_term hterm
      have hlen := (topTermsWithin_reads _ hothers).row.stop_eq
      have hstop : c'.pos < stop := h.lt_stop hlt (by omega)
      obtain ⟨y', hterm', hy'⟩ := arrives_term (hcarry c'.pos) h (Nat.le_refl _) hterm
        (.here (by omega))
      obtain ⟨x', hx', hresult, hcursor⟩ := ih hy' hothers hx
      refine ⟨x', hx', ?_⟩
      have hk' : decide (w.snd.kindAt c'.pos = .eof) = false := by
        rw [← h.kindAt_eq hw hstop]
        exact Bool.not_eq_true _ ▸ hk
      -- the first term is the same, so what is left is to put it in front
      have hrest : (topTermsWithin ((t :: others).length + k) w.snd c').result =
            ((topTermsWithin (others.length + k) >>= fun us => pure (t :: us)) w.snd y').result ∧
          (topTermsWithin ((t :: others).length + k) w.snd c').cursor =
            ((topTermsWithin (others.length + k) >>= fun us => pure (t :: us)) w.snd y').cursor := by
        rw [List.length_cons, Nat.add_right_comm]
        have hat : (at? .eof).Runs w.snd c' false c' := runs_at?.2 ⟨hk', rfl⟩
        exact ⟨(bind_of_runs hat).1.trans (bind_of_runs hterm').1,
          (bind_of_runs hat).2.trans (bind_of_runs hterm').2⟩
      obtain ⟨hr, hc⟩ := result_bind_pure (topTermsWithin (others.length + k)) (t :: ·) w.snd y'
      refine ⟨?_, by rw [hrest.2, hc, hcursor]⟩
      rw [hrest.1, hr, hresult]
      cases (topTermsWithin k w.snd x').result <;> rfl

theorem length_le_termsYield : ∀ ts : List Term, ts.length ≤ (termsYield ts).length
  | [] => Nat.le_refl 0
  | t :: ts => by
    have := List.length_pos_iff.2 t.yield_ne_nil
    have := length_le_termsYield ts
    rw [termsYield, List.length_append, List.length_cons]
    omega

theorem not_extendsTerm_of_startsTerm {k : Kind} (h : startsTerm k = true) (hparen : k ≠ .parenOpen)
    (hbracket : k ≠ .bracketOpen) : extendsTerm k = false := by
  cases k <;> first | rfl | contradiction

/-- Tokens, and the same tokens up to an index with others from there on. -/
def Window.spliced (u v : List Token) (stop maxDepth : Nat) : Window :=
  ⟨⟨u.toArray, maxDepth⟩, ⟨(u.take stop ++ v).toArray, maxDepth⟩, 0, 0, stop⟩

section

variable {u v : List Token} {stop maxDepth : Nat}

theorem seam_spliced {ys : List Terminal} (hrow : Stream.Row ⟨u.toArray, maxDepth⟩ 0 ys stop)
    (hb : Bracketed ys) (hstop : stop ≤ u.length) (hends : ∀ t ∈ v.head?, extendsTerm t.kind = false) :
    (Window.spliced u v stop maxDepth).Seam stop := by
  have hagree : ∀ i < stop, (u.take stop ++ v)[i]? = u[i]? := fun i hi => by
    rw [List.getElem?_append_left (by rw [List.length_take]; omega), List.getElem?_take_of_lt hi]
  refine ⟨rfl, fun i hi => ?_, hstop, ?_, ?_, ?_, Nat.le_refl _⟩
  · show u.toArray[i + 0]? = (u.take stop ++ v).toArray[i]?
    rw [List.getElem?_toArray, List.getElem?_toArray, hagree i hi, Nat.add_zero]
  · show stop ≤ (u.take stop ++ v).toArray.size
    rw [List.size_toArray, List.length_append, List.length_take]
    omega
  · have hrow' : Stream.Row ⟨(u.take stop ++ v).toArray, maxDepth⟩ 0 ys (0 + ys.length) :=
      hrow.carry (k := 0) rfl fun m _ hm => by
        rw [List.getElem?_toArray, List.getElem?_toArray, hagree m hm, Nat.add_zero]
    rw [← hrow.stop_eq] at hrow'
    exact hrow'.reaches hb
  · have htoken : (u.take stop ++ v)[stop]? = v.head? := by
      rw [List.getElem?_append_right (by rw [List.length_take]; omega), List.length_take,
        Nat.min_eq_left hstop, Nat.sub_self, List.head?_eq_getElem?]
    show extendsTerm (Stream.kindAt ⟨(u.take stop ++ v).toArray, maxDepth⟩ stop) = false
    unfold Stream.kindAt
    rw [List.getElem?_toArray, htoken]
    cases hv : v.head? with
    | none => rfl
    | some t => exact hends t hv

/-- Behind what stands before them, tokens are seen as they are by themselves. -/
theorem sees_behind (row : List Token) (hv : v ≠ []) :
    Window.Sees ⟨⟨(row ++ v).toArray, maxDepth⟩, ⟨v.toArray, maxDepth⟩, row.length, 0, v.length⟩ .whole 0
      ⟨row.length, 0⟩ .start where
  maxDepth_eq := rfl
  pos_eq := (Nat.zero_add _).symm
  depth_eq := rfl
  le_pos := Nat.le_refl _
  limit_le := Nat.le_refl _
  shows := by
    refine ⟨Nat.zero_le _, ?_, ?_, ?_⟩
    · exact List.drop_left' rfl
    · show (row ++ v).toArray.back? = v.toArray.back?
      simp [List.getLast?_append, List.getLast?_eq_some_getLast hv]
    · show (row ++ v).length = v.length + row.length
      rw [List.length_append, Nat.add_comm]

end

/-- Terms up to the end of the input, which must be there. -/
theorem result_of_mimics {w : Window} {lo bound k bound' : Nat} {c x c' : Cursor}
    {ts : List Term} (hlift : w.lift = 0)
    (hresult : (topTermsWithin bound w.fst c).result = (topTermsWithin k w.fst x).result.map (ts ++ ·))
    (hcursor : (topTermsWithin bound w.fst c).cursor = (topTermsWithin k w.fst x).cursor)
    (h : (topTermsWithin k).Mimics w (w.Sees .whole lo) x c' (topTermsWithin bound')) :
    ((topTermsWithin bound >>= fun ts => expect .eof .program >>= fun _ => pure (Program.mk ts))
        w.fst c).result =
      ((topTermsWithin bound' >>= fun ts => expect .eof .program >>= fun _ => pure (Program.mk ts))
        w.snd c').result.map fun q => ⟨ts ++ q.terms⟩ := by
  cases h with
  | @ok us ha hb hc =>
    rw [ha] at hresult
    rw [(bind_of_ok hresult).1, (bind_of_ok hb).1, hcursor]
    cases mimics_expect_eof hc .program with
    | ok ha' hb' _ =>
      rw [(bind_of_ok ha').1, (bind_of_ok hb').1]
      rfl
    | error ha' hb' =>
      rw [bind_of_error ha', bind_of_error hb']
      rfl
    | lost hlift' => omega
  | error ha hb =>
    rw [ha] at hresult
    rw [bind_of_error hresult, bind_of_error hb]
    rfl
  | lost hlift' => omega

/-- A program is its terms and the end of the input. -/
theorem parseProgram_eq (tokens : List Token) (maxDepth bound : Nat)
    (hbound : tokens.length + 1 = bound) : parseProgram tokens maxDepth =
      ((topTermsWithin bound >>= fun ts => expect .eof .program >>= fun _ => pure (Program.mk ts))
        ⟨tokens.toArray, maxDepth⟩ .start).result := by
  subst hbound
  rfl

/-- The program that a program and what follows it make up, if that begins with a term and with no
bracket that could go on with the one before: the terms of the program and the terms of what follows,
or the error of what follows. -/
theorem parseProgram_juxtaposed {u : List Token} {maxDepth : Nat} {p : Program}
    (hu : parseProgram u maxDepth = .ok p) {t : Token} (hstart : startsTerm t.kind = true)
    (hparen : t.kind ≠ .parenOpen) (hbracket : t.kind ≠ .bracketOpen) (v : List Token) :
    parseProgram (u.takeWhile (·.kind ≠ .eof) ++ t :: v) maxDepth =
      (parseProgram (t :: v) maxDepth).map fun q => ⟨p.terms ++ q.terms⟩ := by
  have hrun : program.Runs ⟨u.toArray, maxDepth⟩ .start p
      (program ⟨u.toArray, maxDepth⟩ .start).cursor := ⟨hu, rfl⟩
  simp only [program, runs_bind, runs_remaining, runs_expect_eof, runs_pure] at hrun
  obtain ⟨_, _, ⟨rfl, rfl⟩, ts, x, hts, last, _, ⟨hlast, hk, rfl⟩, rfl, -⟩ := hrun
  have hread := topTermsWithin_reads _ hts
  have hlen := hread.row.stop_eq
  have hts_le := length_le_termsYield ts
  have hlt : x.pos < u.length := (Array.getElem?_eq_some_iff.1 hlast).1
  rw [show u = (⟨u.toArray, maxDepth⟩ : Stream).tokens.toList from rfl,
    Stream.takeWhile_of_row hread.row hlast hk]
  -- the end of the input is where no term goes on, in the first stream as in the second
  have hw : (Window.spliced u (t :: v) x.pos maxDepth).Seam x.pos :=
    seam_spliced hread.row (bracketed_termsYield ts) (Nat.le_of_lt hlt) fun t' ht' => by
      rw [List.head?_cons, Option.mem_some_iff] at ht'
      exact ht' ▸ not_extendsTerm_of_startsTerm hstart hparen hbracket
  have hcarry : ∀ start, CarryTerms (Window.spliced u (t :: v) x.pos maxDepth) x.pos (· ≤ x.pos) start :=
    carryTerms_of_confined hw fun hterm hle =>
      (term_reads _ hterm).row.le_of_eof hle ((Stream.kindAt_of_token hlast).trans hk)
  have hrow : (u.take x.pos).length = x.pos := by
    rw [List.length_take]
    exact Nat.min_eq_left (Nat.le_of_lt hlt)
  -- the terms before the seam leave room for as many terms as there are tokens behind it
  obtain ⟨k, hroom⟩ : ∃ k, (u.take x.pos ++ t :: v).length + 1 = ts.length + k ∧ (t :: v).length < k := by
    rw [List.length_append, hrow]
    have hpos : x.pos = (termsYield ts).length := by simpa [Cursor.start] using hlen
    exact ⟨x.pos + (t :: v).length + 1 - ts.length, by omega, by omega⟩
  have hstart : (Window.spliced u (t :: v) x.pos maxDepth).Abreast x.pos .start .start :=
    ⟨rfl, rfl, .refl _, Nat.zero_le _⟩
  obtain ⟨x', hx', hresult, hcursor⟩ := topTermsWithin_of_seam hw hcarry k _ hstart hts rfl
  obtain rfl : x' = ⟨(u.take x.pos).length, 0⟩ := by
    have hpos : x.pos = x'.pos := hx'.pos_eq
    have hdepth : x.depth = x'.depth := hx'.depth_eq
    rw [hrow, hpos, ← show x'.depth = 0 from hdepth.symm.trans hread.depth_eq]
  have hsees := @sees_behind _ maxDepth (u.take x.pos) (List.cons_ne_nil t v)
  rw [parseProgram_eq _ _ _ hroom.1, parseProgram_eq _ _ _ rfl]
  refine result_of_mimics rfl hresult hcursor (mimics_topTermsWithin k _ hsees ?_ ?_)
  · show (t :: v).length < 0 + k
    omega
  · show (t :: v).length < 0 + ((t :: v).length + 1)
    omega

/-! A loop whose body is given back by its head, before a binding that is complete and before one that
is not. -/

/-- The tokens of some kinds, all names alike. -/
def tokensOfKinds (ks : List Kind) : List Token :=
  ks.map fun k => Token.ofWord (if k = .ident then .ident "a" else .ofKind k)

theorem parseProgram_juxtaposed_loop :
    parseProgram (tokensOfKinds [.kwFor, .ident, .braceOpen, .ident, .braceClose, .kwLet, .ident, .eof]) 9 =
      .ok ⟨[.forWhile (.ident "a") [.ident "a"], .binding (.bare "a")]⟩ ∧
    parseProgram (tokensOfKinds [.kwFor, .ident, .braceOpen, .ident, .braceClose, .kwLet, .eof]) 9 =
      parseProgram (tokensOfKinds [.kwLet, .eof]) 9 := by
  have hloop : parseProgram (tokensOfKinds [.kwFor, .ident, .braceOpen, .ident, .braceClose, .eof]) 9 =
      .ok ⟨[.forWhile (.ident "a") [.ident "a"]]⟩ := rfl
  exact ⟨(parseProgram_juxtaposed hloop (t := Token.ofWord (.ofKind .kwLet)) rfl (by decide) (by decide)
      (tokensOfKinds [.ident, .eof])).trans rfl,
    (parseProgram_juxtaposed hloop (t := Token.ofWord (.ofKind .kwLet)) rfl (by decide) (by decide)
      (tokensOfKinds [.eof])).trans rfl⟩

end TermLang
