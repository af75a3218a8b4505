/-!
# Byte offsets in a text

A text is a list of characters. Its offsets count the bytes of its UTF-8 form, so an offset may
fall inside a character, and nothing begins or ends there.
-/

namespace TermLang.Text

/-- The length of a text in bytes. -/
def byteSize : List Char → Nat
  | [] => 0
  | c :: cs => c.utf8Size + byteSize cs

@[simp] theorem byteSize_nil : byteSize [] = 0 := rfl

@[simp] theorem byteSize_cons (c : Char) (cs : List Char) :
    byteSize (c :: cs) = c.utf8Size + byteSize cs := rfl

@[simp] theorem byteSize_append (a b : List Char) :
    byteSize (a ++ b) = byteSize a + byteSize b := by
  induction a with
  | nil => simp
  | cons c a ih => simp [ih, Nat.add_assoc]

theorem length_le_byteSize (cs : List Char) : cs.length ≤ byteSize cs := by
  induction cs with
  | nil => simp
  | cons c cs ih => have := c.utf8Size_pos; simp only [List.length_cons, byteSize_cons]; omega

/-! ## Cutting at byte offsets -/

/-- The text after its first `n` bytes; none where that splits a character or passes the end. -/
def dropBytes? : Nat → List Char → Option (List Char)
  | 0, cs => some cs
  | _ + 1, [] => none
  | n + 1, c :: cs => if c.utf8Size ≤ n + 1 then dropBytes? (n + 1 - c.utf8Size) cs else none

/-- The first `n` bytes of a text; none where that splits a character or passes the end. -/
def takeBytes? : Nat → List Char → Option (List Char)
  | 0, _ => some []
  | _ + 1, [] => none
  | n + 1, c :: cs =>
    if c.utf8Size ≤ n + 1 then (takeBytes? (n + 1 - c.utf8Size) cs).map (c :: ·) else none

/-- The text between two byte offsets; none for a range that is reversed, passes the end or
splits a character. -/
def slice? (start stop : Nat) (cs : List Char) : Option (List Char) :=
  if start ≤ stop then (dropBytes? start cs).bind (takeBytes? (stop - start)) else none

theorem dropBytes?_append (a b : List Char) : dropBytes? (byteSize a) (a ++ b) = some b := by
  induction a with
  | nil => simp [dropBytes?]
  | cons c a ih =>
    have hc := c.utf8Size_pos
    obtain ⟨n, hn⟩ : ∃ n, byteSize (c :: a) = n + 1 := ⟨c.utf8Size - 1 + byteSize a, by simp; omega⟩
    have hrest : n + 1 - c.utf8Size = byteSize a := by simp at hn; omega
    rw [hn, List.cons_append, dropBytes?, if_pos (by simp at hn; omega), hrest, ih]

theorem takeBytes?_append (a b : List Char) : takeBytes? (byteSize a) (a ++ b) = some a := by
  induction a with
  | nil => simp [takeBytes?]
  | cons c a ih =>
    have hc := c.utf8Size_pos
    obtain ⟨n, hn⟩ : ∃ n, byteSize (c :: a) = n + 1 := ⟨c.utf8Size - 1 + byteSize a, by simp; omega⟩
    have hrest : n + 1 - c.utf8Size = byteSize a := by simp at hn; omega
    rw [hn, List.cons_append, takeBytes?, if_pos (by simp at hn; omega), hrest, ih]
    rfl

/-- A part of a text is the slice at its own offsets. -/
theorem slice?_append (a b c : List Char) :
    slice? (byteSize a) (byteSize a + byteSize b) (a ++ (b ++ c)) = some b := by
  simp [slice?, dropBytes?_append, takeBytes?_append]

end TermLang.Text
