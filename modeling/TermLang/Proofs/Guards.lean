import TermLang.Proofs.Levels
import TermLang.Proofs.Relaxed

/-!
# Guards before an arrow

A guard that is a function type, `(types) -> result`, stands before the arrow of its branch. Read without
preferring function types, the arrow goes to the innermost function type that the guard ends with
(`Term.lastTypes?`), which is then read as a function. That succeeds if its list names identifiers alone,
for then the list is one of parameters too (`params_of_names`); else the parameters are rejected, and the
reading of the guard fails. `Parse.Freed` says what the outcome is, and is carried through sequences.
-/

namespace TermLang

/-! ## What a guard ends with -/

/-- The term is a single name. -/
def Term.isName : Term → Bool
  | .ident _ => true
  | _ => false

mutual

/-- The list of the innermost function type that a term ends with. -/
def Term.lastTypes? : Term → Option (List Term)
  | .funType types result => some (result.lastTypes?.getD types)
  | .generic _ body | .function _ _ body => body.lastTypes?
  | .binding b => b.lastTypes?
  | .spread _ t | .assign _ t => t.lastTypes?
  | _ => none

/-- The list of the innermost function type that a body ends with. -/
def Body.lastTypes? : Body → Option (List Term)
  | .block _ => none
  | .single t => t.lastTypes?

/-- The list of the innermost function type that a binding ends with. -/
def Binding.lastTypes? : Binding → Option (List Term)
  | .init _ _ value => value.lastTypes?
  | .bare _ => none

end

/-- The innermost function type that the term ends with, if there is one, lists names alone. -/
def Term.listsNames (t : Term) : Bool := (t.lastTypes?.getD []).all Term.isName

example : (Term.funType [.literal (.int 1)] (.funType [.ident "a"] (.ident "b"))).listsNames = true := rfl

theorem Term.lastTypes?_of_last? {t : Term} (h : t.last? = none) : t.lastTypes? = none := by
  cases t with
  | generic _ b | function _ _ b =>
    cases b with
    | block => rfl
    | single => cases h
  | binding b =>
    cases b with
    | bare => rfl
    | init => cases h
  | funType | spread | assign => cases h
  | _ => rfl

namespace Grammar

open Parse

variable {s : Stream} {c x : Cursor} {t : Term}

/-! ## Lists of names -/

/-- A name is one token. -/
theorem name_of_term {r : Restrictions} {name : String} (h : (term r).Runs s c (.ident name) x) :
    s.kindAt c.pos = .ident ∧ x = { c with pos := c.pos + 1 } := by
  have hread := term_reads r h
  have hpos : x.pos = c.pos + 1 := hread.row.stop_eq
  have hdepth : x.depth = c.depth := hread.depth_eq
  exact ⟨hread.row.kindAt, congrArg₂ Cursor.mk hpos hdepth⟩

/-- A name before a token that begins no annotation is a parameter. -/
theorem exists_runs_param (hk : s.kindAt c.pos = .ident) (hnext : s.kindAt (c.pos + 1) ≠ .colon) :
    ∃ p, (param term).Runs s c p { c with pos := c.pos + 1 } := by
  obtain ⟨u, htoken, hu⟩ := Stream.exists_token_of_kindAt hk (by decide)
  refine ⟨.mk u.lexeme none, ?_⟩
  simp only [param, runs_bind, runs_pure]
  exact ⟨_, _, runs_expectIdent.2 ⟨u, ⟨htoken, by rw [hu]; decide, rfl⟩, hu, rfl⟩, none, _,
    runs_anno?.2 (.inr ⟨hnext, rfl, rfl⟩), rfl, rfl⟩

/-- A list rejects a token that neither ends it nor begins an item. -/
theorem itemsWithin_of_ne {α : Type} {close : Kind} {begins : Kind → Bool} {rule : Rule}
    {expected : List Kind} {item : Parse α} (n : Nat) (he : close ≠ .eof) (hk : s.kindAt c.pos ≠ close)
    (hb : begins (s.kindAt c.pos) = false) :
    (itemsWithin close begins rule expected item n s c).result =
      .error (errorAt s c rule (.unexpected (.ofList expected))) := by
  cases n with
  | zero => rfl
  | succ n =>
    refine (bind_of_runs ((runs_skip he).2 (.inr ⟨hk, rfl, rfl⟩))).1.trans ?_
    refine (bind_of_runs (runs_kind.2 ⟨rfl, rfl⟩)).1.trans ?_
    rw [if_neg (by rw [hb]; decide)]
    rfl

/-- Behind an item that was read a list fails where the rest of it does. -/
theorem itemsWithin_of_error {α : Type} {close : Kind} {begins : Kind → Bool} {rule : Rule}
    {expected : List Kind} {item : Parse α} {n : Nat} {a : α} {e : SyntaxError} (he : close ≠ .eof)
    (hk : s.kindAt c.pos ≠ close) (hb : begins (s.kindAt c.pos) = true) (ha : item.Runs s c a x)
    (h : (itemsWithin close begins rule expected item n s x).result = .error e) :
    (itemsWithin close begins rule expected item (n + 1) s c).result = .error e := by
  refine (bind_of_runs ((runs_skip he).2 (.inr ⟨hk, rfl, rfl⟩))).1.trans ?_
  refine (bind_of_runs (runs_kind.2 ⟨rfl, rfl⟩)).1.trans ?_
  rw [if_pos hb]
  exact (bind_of_runs ha).1.trans (bind_of_error h)

section

variable {rule rule' : Rule} {expected expected' : List Kind} {n : Nat} {ts : List Term}

/-- Behind a term of a list no link begins, and no annotation. -/
theorem not_continuesChain_of_types {y : Cursor} (ht : (term .free).Runs s c t x)
    (hts : (itemsWithin .parenClose startsTerm rule expected (term .free) n).Runs s x ts y) :
    continuesChain .free (s.kindAt x.pos) = false ∧ s.kindAt x.pos ≠ .colon := by
  have hk := kindAt_of_items (by decide) hts
  refine ⟨Bool.eq_false_iff.2 fun hcont => ?_, fun hcolon => ?_⟩
  · cases runs_link.1 (stops_of_term ht hcont t) with
    | left hopen =>
      simp only at hopen
      rw [hopen] at hk
      exact absurd hk (by decide)
    | none hne => exact absurd hcont (by rw [hne]; decide)
  · rw [hcolon] at hk
    exact absurd hk (by decide)

/-- A list of names is one of parameters. -/
theorem params_of_names
    (h : (itemsWithin .parenClose startsTerm rule expected (term .free) n).Runs s c ts x)
    (hts : ts.all Term.isName = true) :
    ∃ ps, (itemsWithin .parenClose isIdent rule' expected' (param term) n).Runs s c ps x := by
  have he : Kind.parenClose ≠ .eof := by decide
  induction n generalizing c ts with
  | zero => exact absurd h not_runs_reject
  | succ n ih =>
    simp only [runs_itemsWithin_succ he] at h ⊢
    obtain ⟨-, hclose⟩ | ⟨hne, -, t, y, others, rfl, ht, hothers⟩ := h
    · exact ⟨[], .inl ⟨rfl, hclose⟩⟩
    · rw [List.all_cons, Bool.and_eq_true] at hts
      obtain ⟨name, rfl⟩ : ∃ name, t = .ident name := by
        cases t <;> first
          | exact ⟨_, rfl⟩
          | cases hts.1
      obtain ⟨hk, rfl⟩ := name_of_term ht
      obtain ⟨p, hp⟩ := exists_runs_param hk (not_continuesChain_of_types ht hothers).2
      obtain ⟨ps, hps⟩ := ih hothers hts.2
      exact ⟨p :: ps, .inr ⟨hne, by rw [hk]; rfl, p, _, ps, rfl, hp, hps⟩⟩

/-- A list with a type that is no name is rejected as one of parameters. -/
theorem params_of_types
    (h : (itemsWithin .parenClose startsTerm rule expected (term .free) n).Runs s c ts x)
    (hts : ts.all Term.isName = false) :
    ∃ y, (itemsWithin .parenClose isIdent rule' expected' (param term) n s c).result =
      .error (errorAt s y rule' (.unexpected (.ofList expected'))) := by
  have he : Kind.parenClose ≠ .eof := by decide
  induction n generalizing c ts with
  | zero => exact absurd h not_runs_reject
  | succ n ih =>
    rw [runs_itemsWithin_succ he] at h
    obtain ⟨rfl, -⟩ | ⟨hne, -, t, y, others, rfl, ht, hothers⟩ := h
    · cases hts
    by_cases hk : s.kindAt c.pos = .ident
    · have hb : isIdent (s.kindAt c.pos) = true := decide_eq_true hk
      by_cases hnext : continuesChain .free (s.kindAt (c.pos + 1)) = true
      · -- the name is a parameter, and the link behind it is none
        have hkinds : s.kindAt (c.pos + 1) ≠ .colon ∧ s.kindAt (c.pos + 1) ≠ .parenClose ∧
            isIdent (s.kindAt (c.pos + 1)) = false := by
          generalize s.kindAt (c.pos + 1) = k at hnext
          cases k <;> first
            | decide
            | cases hnext
        obtain ⟨p, hp⟩ := exists_runs_param hk hkinds.1
        exact ⟨_, itemsWithin_of_error he hne hb hp (itemsWithin_of_ne n he hkinds.2.1 hkinds.2.2)⟩
      · obtain ⟨name, hname⟩ := runs_ident hk (Bool.eq_false_iff.2 hnext)
        have hle := Nat.le_of_lt (start_lt_of_term ht)
        obtain ⟨rfl, rfl⟩ := ht.unique (hname c.depth ((runs_term hle).1 ht).1)
        obtain ⟨p, hp⟩ := exists_runs_param hk (not_continuesChain_of_types ht hothers).2
        obtain ⟨z, hz⟩ := ih hothers hts
        exact ⟨z, itemsWithin_of_error he hne hb hp hz⟩
    · exact ⟨c, itemsWithin_of_ne _ he hne (decide_eq_false hk)⟩

end

/-- The same of the whole list, behind its bracket. -/
theorem params_of_typeList {z : Cursor} {ts : List Term} (h : (typeList term).Runs s c ts z) :
    ∃ y, bump.Runs s c () y ∧
      (ts.all Term.isName = true → ∃ ps, (paramsUntil term .parenClose .fun_).Runs s y ps z) ∧
      (ts.all Term.isName = false → ∃ v, (paramsUntil term .parenClose .fun_ s y).result =
        .error (errorAt s v .fun_ (.unexpected (.ofList [.ident, .parenClose])))) := by
  simp only [typeList, termsUntil, itemsUntil, runs_bind, runs_remaining] at h
  obtain ⟨mark, y, hopen, _, _, ⟨rfl, rfl⟩, hitems⟩ := h
  obtain ⟨htake, hk⟩ := (runs_expect (by decide)).1 hopen
  refine ⟨y, (runs_bump (htake.kindAt.trans hk) (by decide)).2 ⟨mark, htake, hk⟩, fun hts => ?_, fun hts => ?_⟩
  · obtain ⟨ps, hps⟩ := params_of_names hitems hts
    exact ⟨ps, runs_bind.2 ⟨_, _, runs_remaining.2 ⟨rfl, rfl⟩, hps⟩⟩
  · obtain ⟨v, hv⟩ := params_of_types hitems hts
    exact ⟨v, (bind_of_runs (runs_remaining.2 ⟨rfl, rfl⟩)).1.trans hv⟩

end Grammar

/-! ## Outcomes -/

/-- The result of a reply and the cursor that it leaves. -/
def Reply.outcome {α : Type} (reply : Reply α) : Except SyntaxError α × Cursor :=
  (reply.result, reply.cursor)

namespace Parse

variable {α β : Type} {s : Stream} {c x : Cursor} {p : Parse α} {f : α → Parse β} {a : α}

theorem runs_iff_outcome : p.Runs s c a x ↔ (p s c).outcome = (.ok a, x) := Prod.mk.injEq .. ▸ Iff.rfl

theorem outcome_bind (h : p.Runs s c a x) : ((p >>= f) s c).outcome = (f a s x).outcome :=
  congrArg₂ Prod.mk (bind_of_runs h).1 (bind_of_runs h).2

end Parse

/-! ## Guards that are read freely -/

namespace Parse

variable {α β : Type} {s : Stream} {c x u : Cursor} {stop : Nat} {p : Parse α} {f : α → Parse β} {a : α}
  {b : β} {o o' : Option (List Term)}

/-- What a parser makes of a guard that stands before an arrow, with a body up to an index behind it. It
reads the value as before if no function type ends it; else it takes the body too, if the list of the
innermost one is made of names, and else rejects that list. -/
inductive Freed (p : Parse α) (s : Stream) (c : Cursor) (stop : Nat) (a : α) (x : Cursor) :
    Option (List Term) → Prop
  | same : p.Runs s c a x → Freed p s c stop a x none
  | past {types : List Term} {b : α} {y : Cursor} : types.all Term.isName = true → p.Runs s c b y →
      y.pos = stop → Freed p s c stop a x (some types)
  | rejected {types : List Term} {y : Cursor} : types.all Term.isName = false →
      (p s c).result = .error (errorAt s y .fun_ (.unexpected (.ofList [.ident, .parenClose]))) →
        Freed p s c stop a x (some types)
  | tooDeep {o : Option (List Term)} {e : SyntaxError} : (p s c).result = .error e →
      e.isTooDeep = true → Freed p s c stop a x o

/-- What follows a parser that succeeds. -/
theorem Runs.freed (h : p.Runs s c a u) (hf : (f a).Freed s u stop b x o) :
    (p >>= f).Freed s c stop b x o := by
  cases hf with
  | same hrun => exact .same (runs_bind.2 ⟨a, u, h, hrun⟩)
  | past hts hrun hy => exact .past hts (runs_bind.2 ⟨a, u, h, hrun⟩) hy
  | rejected hts hr => exact .rejected hts ((bind_of_runs h).1.trans hr)
  | tooDeep hr he => exact .tooDeep ((bind_of_runs h).1.trans hr) he

/-- What follows a part that is read freely: it is read behind the same value, or where the body ends. -/
theorem Freed.bind (h : p.Freed s c stop a u o) (hsame : o = none → (f a).Freed s u stop b x o')
    (ho : ∀ types, o = some types → o' = some types)
    (hpast : ∀ a' u', u'.pos = stop → ∃ b' x', (f a').Runs s u' b' x' ∧ x'.pos = stop) :
    (p >>= f).Freed s c stop b x o' := by
  cases h with
  | same hrun => exact hrun.freed (hsame rfl)
  | past hts hrun hy =>
    obtain ⟨b', x', hrun', hx'⟩ := hpast _ _ hy
    rw [ho _ rfl]
    exact .past hts (runs_bind.2 ⟨_, _, hrun, hrun'⟩) hx'
  | rejected hts hr =>
    rw [ho _ rfl]
    exact .rejected hts (bind_of_error hr)
  | tooDeep hr he => exact .tooDeep (bind_of_error hr) he

theorem Freed.map {f : α → β} (h : p.Freed s c stop a x o) :
    (p >>= fun a => pure (f a)).Freed s c stop (f a) x o :=
  h.bind (by rintro rfl; exact .same (runs_pure.2 ⟨rfl, rfl⟩)) (fun _ => id)
    fun a' u' hu' => ⟨f a', u', runs_pure.2 ⟨rfl, rfl⟩, hu'⟩

theorem runs_ascended : (ascend >>= fun _ => (pure a : Parse α)).Runs s u a { u with depth := u.depth - 1 } :=
  runs_bind.2 ⟨(), _, runs_ascend.2 rfl, runs_pure.2 ⟨rfl, rfl⟩⟩

/-- Closing a level changes neither. -/
theorem Freed.ascended (h : p.Freed s c stop a x o) :
    (p >>= fun a => ascend >>= fun _ => pure a).Freed s c stop a { x with depth := x.depth - 1 } o :=
  h.bind (by rintro rfl; exact .same runs_ascended) (fun _ => id) fun a' _ hu' => ⟨a', _, runs_ascended, hu'⟩

end Parse

end TermLang
