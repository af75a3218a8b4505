import TermLang.Proofs.HeadroomTerms

/-!
# What the nesting limit decides

The nesting limit rejects programs, and changes the reading of none: what is read, or rejected for
another reason, under one limit is read or rejected just so under every higher one. An input with no
more tokens than the limit allows levels is never rejected by it.
-/

namespace TermLang

open Parse

theorem Stream.alike_of_le (tokens : Array Token) {d d' : Nat} (h : d ≤ d') :
    Stream.Alike ⟨tokens, d⟩ ⟨tokens, d'⟩ := ⟨rfl, h⟩

theorem Stream.roomy_of_last {tokens : List Token} {last : Token} {m : Nat}
    (hlast : last.kind = .eof) (hm : (tokens ++ [last]).length ≤ m) :
    Stream.Roomy ⟨(tokens ++ [last]).toArray, m⟩ := by
  refine ⟨by simp, ?_, hm⟩
  have htoken : (tokens ++ [last]).toArray[(tokens ++ [last]).toArray.size - 1]? = some last := by
    simp
  exact (Stream.kindAt_of_token htoken).trans hlast

/-- What comes of tokens under a limit that is not hit comes of them under every higher limit; and a
limit of as many levels as there are tokens, the last one being the end of the input, is not hit. -/
theorem parseProgram_of_limit :
    (∀ (tokens : List Token) (d d' : Nat), d ≤ d' →
      (∀ e, parseProgram tokens d = .error e → e.isTooDeep = false) →
        parseProgram tokens d' = parseProgram tokens d) ∧
    (∀ (tokens : List Token) (last : Token) (m : Nat), last.kind = .eof →
      (tokens ++ [last]).length ≤ m →
        ∀ e, parseProgram (tokens ++ [last]) m = .error e → e.isTooDeep = false) := by
  constructor
  · intro tokens d d' hd hshallow
    cases Grammar.steady_program (Stream.alike_of_le tokens.toArray hd) .start with
    | ok ha hb hv _ =>
      subst hv
      exact hb.trans ha.symm
    | error ha hb => exact hb.trans ha.symm
    | tooDeep _ ha he =>
      rw [hshallow _ ha] at he
      exact nomatch he
  · intro tokens last m hlast hm
    have hs := Stream.roomy_of_last hlast hm
    exact Grammar.clear_program hs .start ⟨Nat.le_refl 0, hs.size_pos⟩

/-! The value of a named argument stands in a speculation, one level above the application. -/

/-- `a { a = a }` without the end of the input. -/
def namedTokens : List Token :=
  [.ident, .braceOpen, .ident, .equals, .ident, .braceClose].map fun k =>
    Token.ofWord (if k = .ident then .ident "a" else .ofKind k)

theorem parseProgram_of_limit_named :
    parseProgram (namedTokens ++ [.eof .start]) 7 = parseProgram (namedTokens ++ [.eof .start]) 3 ∧
    parseProgram (namedTokens ++ [.eof .start]) 3 =
      .ok ⟨[.applyNamed (.ident "a") [.given "a" none (.ident "a")]]⟩ ∧
    ∀ e, parseProgram (namedTokens ++ [.eof .start]) 7 = .error e → e.isTooDeep = false := by
  have h : parseProgram (namedTokens ++ [.eof .start]) 3 =
      .ok ⟨[.applyNamed (.ident "a") [.given "a" none (.ident "a")]]⟩ := rfl
  refine ⟨parseProgram_of_limit.1 _ 3 7 (by decide) ?_, h,
    parseProgram_of_limit.2 _ _ 7 rfl (by decide)⟩
  intro e he
  rw [h] at he
  exact nomatch he

end TermLang
