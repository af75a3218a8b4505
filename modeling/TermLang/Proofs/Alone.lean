import TermLang.Proofs.CutTerms
import TermLang.Proofs.Juxtaposed

/-!
# Terms by themselves

What a term is read of makes up the same term by itself, before the end of the input and without
restrictions (`onlyTerm_of_term`). The restrictions of a term and what stands behind it only decide where
it ends.

There is one exception. If the restrictions keep the token behind a term out of it, the head of a loop in
the term is first read without restrictions all the same, beyond that token. By itself such a head ends
with the term, and if it ends with a named application there, that is the body of the loop
(`loop_not_alone`).
-/

namespace TermLang

open Grammar Parse

/-- The restrictions keep a link from a term that could go on with a token of the kind. -/
def Restrictions.keepsOut (r : Restrictions) (k : Kind) : Bool :=
  continuesChain .free k && !continuesChain r k

/-- No loop begins outside brackets. -/
def Stream.Loopless (s : Stream) : Prop := ∀ i, s.Reaches 0 i → s.kindAt i ≠ .kwFor

/-- Tokens, and those from one index up to another by themselves with a last one behind them. -/
def Window.alone (tokens : List Token) (i j d maxDepth : Nat) (last : Token) : Window :=
  ⟨⟨tokens.toArray, maxDepth⟩, ⟨(tokens.extract i j ++ [last]).toArray, maxDepth⟩, i, d, j - i⟩

section

variable {tokens : List Token} {i j d maxDepth : Nat} {last : Token}

theorem length_extract (hj : j ≤ tokens.length) : (tokens.extract i j).length = j - i := by
  rw [List.extract_eq_take_drop, List.length_take, List.length_drop]
  omega

theorem token_alone (hj : j ≤ tokens.length) :
    (tokens.extract i j ++ [last]).toArray[j - i]? = some last := by
  rw [List.getElem?_toArray, ← length_extract hj, List.getElem?_concat_length]

/-- Where a bracketed row ends, the stretch by itself has its seam. -/
theorem seam_alone {ys : List Terminal} (hrow : Stream.Row ⟨tokens.toArray, maxDepth⟩ i ys j)
    (hb : Bracketed ys) (hj : j ≤ tokens.length) (he : last.kind = .eof) :
    (Window.alone tokens i j d maxDepth last).Seam (j - i) := by
  have hlen := hrow.stop_eq
  have hagree : ∀ m < j - i, (tokens.extract i j ++ [last])[m]? = tokens[m + i]? := fun m hm => by
    rw [List.getElem?_append_left (by rw [length_extract hj]; exact hm), List.extract_eq_take_drop,
      List.getElem?_take_of_lt hm, List.getElem?_drop, Nat.add_comm]
  refine ⟨rfl, fun m hm => ?_, ?_, ?_, ?_, ?_, Nat.le_refl _⟩
  · show tokens.toArray[m + i]? = (tokens.extract i j ++ [last]).toArray[m]?
    rw [List.getElem?_toArray, List.getElem?_toArray, hagree m hm]
  · show j - i + i ≤ tokens.length
    omega
  · show j - i ≤ (tokens.extract i j ++ [last]).length
    rw [List.length_append, length_extract hj]
    exact Nat.le_add_right _ _
  · have hrow' : (Window.alone tokens i j d maxDepth last).snd.Row 0 ys (0 + ys.length) :=
      hrow.carry (Nat.zero_add i) fun m _ hm => by
        show (tokens.extract i j ++ [last]).toArray[m]? = tokens.toArray[m + i]?
        rw [List.getElem?_toArray, List.getElem?_toArray, hagree m (by omega)]
    rw [show 0 + ys.length = j - i by omega] at hrow'
    exact hrow'.reaches hb
  · rw [show (Window.alone tokens i j d maxDepth last).snd.kindAt (j - i) = last.kind from
      Stream.kindAt_of_token (token_alone hj), he]
    rfl

end

namespace Grammar

variable {w : Window} {stop : Nat}

/-- Where no loop stands outside brackets, all terms that lead to the seam are carried over. -/
theorem carryTerms_of_loopless (hw : w.Seam stop) (hloop : w.snd.Loopless) (start : Nat) :
    CarryTerms w stop (w.atSeam stop) start := by
  refine carryTerms_of_rereads hw (fun _ => Nat.le_of_eq) ?_ start
  rintro start c c' x y first t - - ⟨i, -, hreach, hk⟩
  exact absurd hk (hloop i hreach)

/-- Behind a term no link begins, whatever levels are open, unless it is kept out of the term. -/
theorem not_link_of_term {s : Stream} {c x y : Cursor} {r : Restrictions} {t target longer : Term} {d : Nat}
    (h : (term r).Runs s c t x) (hkept : r.keepsOut (s.kindAt x.pos) = false)
    (hk : continuesChain .free (s.kindAt x.pos) = true) :
    ¬ (link term .free target).Runs s ⟨x.pos, d⟩ (some longer) y := by
  intro hlink
  rw [Restrictions.keepsOut, hk, Bool.true_and, Bool.not_eq_false'] at hkept
  have hnone := stops_of_term h hkept target
  have hne := kindAt_of_link_none hnone
  have hnone' := hnone.congr (link_congr hne r .free target)
  have hle : x.pos ≤ s.tokens.size := stop_le_of_term h
  have hsame := @same_of_mimics s { x with depth := x.depth + 1 } ⟨x.pos, d⟩ _ _ _ _ none (some longer)
    (fun hsees => ⟨_, mimics_link (mimicTerms_term _ _) .free target hsees (Nat.le_refl _)⟩) rfl hle
    hnone' hlink
  cases hsame.1

end Grammar

end TermLang
