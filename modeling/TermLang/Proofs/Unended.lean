import TermLang.Proofs.Juxtaposed
import TermLang.Proofs.Steady

/-!
# Tokens without an end

A row of tokens may hold no end of the input. To every lookup a missing token is the end of the input, so
all terms are read as if it were there. Only the parser of programs asks in the end for the token itself.
-/

namespace TermLang

open Grammar Parse

/-- The stream with an end of the input behind its tokens. -/
def Stream.ended (s : Stream) : Stream := { s with tokens := s.tokens.push s.endToken }

/-- A stream and the same stream with an end. -/
def Window.ended (s : Stream) : Window := ⟨s, s.ended, 0, 0, s.tokens.size⟩

theorem sees_ended (s : Stream) : (Window.ended s).Sees .ended 0 .start .start where
  maxDepth_eq := rfl
  pos_eq := rfl
  depth_eq := rfl
  le_pos := Nat.le_refl 0
  limit_le := Nat.le_refl _
  shows := ⟨Nat.zero_le _, rfl, rfl⟩

theorem Parse.expect_of_none {s : Stream} {c : Cursor} (k : Kind) (rule : Rule)
    (h : s.tokens[c.pos]? = none) :
    (expect k rule s c).result = .error (errorAt s c rule (.unexpected (.ofList [k]))) :=
  (bind_of_runs (runs_current.2 ⟨h, rfl⟩)).1

/-- Where all tokens are read, none of them being an end, the end is missing. -/
theorem Stream.getElem?_of_unended {s : Stream} (hs : ∀ t ∈ s.tokens, t.kind ≠ .eof) {i : Nat}
    (h : s.kindAt i = .eof) : s.tokens[i]? = none := by
  cases ht : s.tokens[i]? with
  | none => rfl
  | some t =>
    rw [Stream.kindAt_of_token ht] at h
    exact absurd h (hs t (Array.mem_of_getElem? ht))

/-- An error past the row does not tell how far past it. -/
theorem Parse.errorAt_of_none {s : Stream} {c : Cursor} (h : s.tokens[c.pos]? = none) (rule : Rule)
    (fault : SyntaxFault) : errorAt s c rule fault =
      ⟨fault, rule, (s.tokens.back?.map (·.span.stop)).getD .start, .eof, ""⟩ := by
  unfold errorAt Stream.kindAt
  rw [h]
  cases s.tokens.back? <;> rfl

/-- What is accepted with an end lacks it alone; what is rejected with one is rejected without it. -/
theorem program_ended {s : Stream} (hs : ∀ t ∈ s.tokens, t.kind ≠ .eof) :
    match (program s.ended .start).result with
    | .ok _ => (program s .start).result = .error ⟨.unexpected (.ofList [.eof]), .program,
        (s.tokens.back?.map (·.span.stop)).getD .start, .eof, ""⟩
    | .error e => (program s .start).result = .error e := by
  have hsees := sees_ended s
  have hterms := mimics_topTermsWithin (s.remaining 0) (s.ended.remaining 0) hsees
    hsees.lt_remaining.1 hsees.lt_remaining.2
  have hfst : (program s .start).result = ((topTermsWithin (s.remaining 0) >>= fun ts =>
      expect .eof .program >>= fun _ => pure (Program.mk ts)) s .start).result := rfl
  have hsnd : (program s.ended .start).result = ((topTermsWithin (s.ended.remaining 0) >>= fun ts =>
      expect .eof .program >>= fun _ => pure (Program.mk ts)) s.ended .start).result := rfl
  cases hterms with
  | @ok ts ha hb hx =>
    have heof := kindAt_of_topTermsWithin ⟨ha, rfl⟩ (Nat.zero_le _) (Nat.le_refl _)
    have hnone := Stream.getElem?_of_unended hs heof
    have hlt : (topTermsWithin (s.ended.remaining 0) s.ended .start).cursor.pos <
        s.ended.tokens.size := by
      rw [Stream.ended, Array.size_push]
      exact Nat.lt_succ_of_le hx.pos_le
    have hend := Array.getElem?_eq_getElem hlt
    have hk := (Stream.kindAt_of_token hend).symm.trans (hx.kindAt_eq.symm.trans heof)
    have hok : (program s.ended .start).result = .ok ⟨ts⟩ :=
      hsnd.trans ((bind_of_ok hb).1.trans (bind_of_runs (runs_expect_eof.2 ⟨hend, hk, rfl⟩)).1)
    rw [hok]
    refine hfst.trans ((bind_of_ok ha).1.trans (bind_of_error ?_))
    rw [← errorAt_of_none hnone]
    exact expect_of_none .eof .program hnone
  | @error e ha hb =>
    have herror : (program s.ended .start).result = .error e := hsnd.trans (bind_of_error hb)
    rw [herror]
    exact hfst.trans (bind_of_error ha)
  | lost hlift => exact absurd hlift (Nat.lt_irrefl 0)

/-- Tokens without an end of the input are read as with one behind them, but never accepted. What is
accepted with it fails by itself, where the last token stops, because no end is there; and what is
rejected with it is rejected by itself for the same reason, in the same rule and at the same kind. -/
theorem parseProgram_unended {ts : List Token} (hts : ∀ t ∈ ts, t.kind ≠ .eof) {e : Token}
    (he : e.kind = .eof) (maxDepth : Nat) :
    match parseProgram (ts ++ [e]) maxDepth with
    | .ok _ => parseProgram ts maxDepth = .error ⟨.unexpected (.ofList [.eof]), .program,
        (ts.getLast?.map (·.span.stop)).getD .start, .eof, ""⟩
    | .error err => ∃ err', parseProgram ts maxDepth = .error err' ∧
        err'.fault = err.fault ∧ err'.rule = err.rule ∧ err'.found = err.found := by
  have hended := @program_ended ⟨ts.toArray, maxDepth⟩ (by simpa using hts)
  -- no parser tells one end of the input from another
  have halike : Stream.Alike (Stream.ended ⟨ts.toArray, maxDepth⟩) ⟨(ts ++ [e]).toArray, maxDepth⟩ := by
    have hterminal : (Stream.endToken ⟨ts.toArray, maxDepth⟩).terminal = e.terminal :=
      (Word.terminal_of_kind (k := .eof) rfl rfl).trans (Word.terminal_of_kind he rfl).symm
    exact ⟨by simp [Stream.ended, hterminal], Nat.le_refl _⟩
  have hresult : parseProgram (ts ++ [e]) maxDepth =
      (program ⟨(ts ++ [e]).toArray, maxDepth⟩ .start).result := rfl
  cases steady_program halike .start with
  | ok ha hb =>
    rw [ha] at hended
    rw [hresult, hb]
    refine Eq.trans hended ?_
    simp
  | @error c rule fault ha hb =>
    rw [ha] at hended
    rw [hresult, hb]
    exact ⟨_, hended, rfl, rfl, halike.kindAt_eq c.pos⟩
  | tooDeep hlt => exact absurd hlt (Nat.lt_irrefl _)

/-! No tokens, a name, and a declaration that breaks off. -/

theorem parseProgram_unended_name :
    parseProgram [] 9 = .error ⟨.unexpected (.ofList [.eof]), .program, .start, .eof, ""⟩ ∧
    (∃ p, parseProgram (tokensOfKinds [.ident] ++ [Token.eof .start]) 9 = .ok p ∧
      parseProgram (tokensOfKinds [.ident]) 9 =
        .error ⟨.unexpected (.ofList [.eof]), .program, .nowhere, .eof, ""⟩) ∧
    ∃ err, parseProgram (tokensOfKinds [.kwStruct]) 9 = .error err ∧
      err.fault = .unexpected (.ofList [.ident, .braceOpen]) ∧ err.rule = .struct ∧ err.found = .eof := by
  have hname : parseProgram (tokensOfKinds [.ident] ++ [Token.eof .start]) 9 = .ok ⟨[.ident "a"]⟩ := rfl
  have hnothing := @parseProgram_unended [] nofun (Token.eof .start) rfl 9
  have hlonely := @parseProgram_unended (tokensOfKinds [.ident]) (by decide) (Token.eof .start) rfl 9
  have hbroken := @parseProgram_unended (tokensOfKinds [.kwStruct]) (by decide) (Token.eof .start) rfl 9
  rw [hname] at hlonely
  exact ⟨hnothing, ⟨_, hname, hlonely⟩, hbroken⟩

end TermLang
