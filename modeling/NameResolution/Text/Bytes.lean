/-!
# Byte offsets in text

Text is a sequence of characters, offsets into it count the bytes of its UTF-8 form. `dropBytes` and
`takeBytes` cut at an offset; `takeBytes_append` and `dropBytes_append` say that an offset at the
end of a part cuts there.
-/

namespace NameResolution.Text

/-- The number of bytes of a text. -/
def byteLength : List Char → Nat
  | [] => 0
  | c :: text => c.utf8Size + byteLength text

/-- The text after its first `n` bytes. -/
def dropBytes : Nat → List Char → List Char
  | _, [] => []
  | 0, text => text
  | n + 1, c :: text => dropBytes (n + 1 - c.utf8Size) text

/-- The first `n` bytes of a text. -/
def takeBytes (n : Nat) (text : List Char) : List Char :=
  match n, text with
  | _, [] => []
  | 0, _ => []
  | n + 1, c :: text => c :: takeBytes (n + 1 - c.utf8Size) text

@[simp] theorem byteLength_nil : byteLength [] = 0 := rfl

@[simp] theorem byteLength_cons (c : Char) (text : List Char) :
    byteLength (c :: text) = c.utf8Size + byteLength text := rfl

@[simp] theorem byteLength_append (s t : List Char) :
    byteLength (s ++ t) = byteLength s + byteLength t := by
  induction s with
  | nil => simp
  | cons c s ih => simp [ih, Nat.add_assoc]

@[simp] theorem dropBytes_zero (text : List Char) : dropBytes 0 text = text := by
  cases text <;> rfl

@[simp] theorem takeBytes_zero (text : List Char) : takeBytes 0 text = [] := by
  cases text <;> rfl

theorem dropBytes_cons (c : Char) (n : Nat) (text : List Char) :
    dropBytes (c.utf8Size + n) (c :: text) = dropBytes n text := by
  have hpos := c.utf8Size_pos
  obtain ⟨m, hm⟩ : ∃ m, c.utf8Size + n = m + 1 := ⟨c.utf8Size + n - 1, by omega⟩
  rw [hm, dropBytes, ← hm, Nat.add_sub_cancel_left]

theorem takeBytes_cons (c : Char) (n : Nat) (text : List Char) :
    takeBytes (c.utf8Size + n) (c :: text) = c :: takeBytes n text := by
  have hpos := c.utf8Size_pos
  obtain ⟨m, hm⟩ : ∃ m, c.utf8Size + n = m + 1 := ⟨c.utf8Size + n - 1, by omega⟩
  rw [hm, takeBytes, ← hm, Nat.add_sub_cancel_left]

/-- Dropping the bytes of a part leaves what follows it. -/
theorem dropBytes_append (s t : List Char) : dropBytes (byteLength s) (s ++ t) = t := by
  induction s with
  | nil => simp
  | cons c s ih => rw [byteLength_cons, List.cons_append, dropBytes_cons, ih]

/-- Taking the bytes of a part gives the part. -/
theorem takeBytes_append (s t : List Char) : takeBytes (byteLength s) (s ++ t) = s := by
  induction s with
  | nil => simp
  | cons c s ih => rw [byteLength_cons, List.cons_append, takeBytes_cons, ih]

end NameResolution.Text
