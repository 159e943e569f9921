import NameResolution.Text.LineIndex
import NameResolution.Text.Split

/-!
# Lines are the pieces between newlines

A line index knows where lines start, not what they are. The range of a line covers the piece of the
text that has as many newlines before it as there are lines before it (`exists_range?`), so what is
cut out of the text is that piece (`map_slice_range?`).
-/

namespace NameResolution.Text

/-- A range that begins after one part of a text covers what follows it, for as many bytes. -/
theorem ByteRange.slice_eq {text : String} {before piece after : List Char}
    (h : text.toList = before ++ piece ++ after) :
    (⟨byteLength before, byteLength before + byteLength piece⟩ : ByteRange).slice text =
      String.ofList piece := by
  rw [slice, h, Nat.add_sub_cancel_left, List.append_assoc, dropBytes_append, takeBytes_append]

namespace LineIndex

theorem startsAfter_of_notMem {text : List Char} (h : '\n' ∉ text) (offset : Nat) :
    startsAfter offset text = [] := by
  refine List.eq_nil_of_length_eq_zero ?_
  rw [length_startsAfter, List.count_eq_zero.mpr h]

/-- Up to its first newline a text is one line; the others are those of what follows. -/
theorem startsAfter_append {piece : List Char} (h : '\n' ∉ piece) (offset : Nat)
    (rest : List Char) :
    startsAfter offset (piece ++ '\n' :: rest) =
      (offset + byteLength piece + 1) :: startsAfter (offset + byteLength piece + 1) rest := by
  induction piece generalizing offset with
  | nil => rw [List.nil_append, startsAfter, if_pos rfl, byteLength_nil, Nat.add_zero]
  | cons c piece ih =>
    obtain ⟨hc, hpiece⟩ := not_or.mp (mt List.mem_cons.mpr h)
    rw [List.cons_append, startsAfter, if_neg (Ne.symm hc), ih hpiece, byteLength_cons,
      Nat.add_assoc offset]

/-- A piece lies between the start of its line and that of the next, if there is a next. -/
theorem starts_around_piece {text piece : List Char} {line : Nat}
    (h : (splitAt '\n' text)[line]? = some piece) (offset : Nat) :
    ∃ before after, text = before ++ piece ++ after ∧
      (offset :: startsAfter offset text)[line]? = some (offset + byteLength before) ∧
      (offset :: startsAfter offset text)[line + 1]? =
        if after = [] then none else some (offset + byteLength before + byteLength piece + 1) := by
  induction line generalizing text offset with
  | zero =>
    by_cases hmem : '\n' ∈ text
    · obtain ⟨first, rest, rfl, hfirst⟩ := List.eq_append_cons_of_mem hmem
      rw [splitAt_append_sep, splitAt_of_notMem hfirst] at h
      obtain rfl : first = piece := Option.some.inj h
      refine ⟨[], '\n' :: rest, rfl, rfl, ?_⟩
      rw [startsAfter_append hfirst]
      rfl
    · rw [splitAt_of_notMem hmem] at h
      obtain rfl : text = piece := Option.some.inj h
      refine ⟨[], [], (List.append_nil _).symm, rfl, ?_⟩
      rw [startsAfter_of_notMem hmem]
      rfl
  | succ line ih =>
    -- there is a line before this one, so there is a newline
    by_cases hmem : '\n' ∈ text
    · obtain ⟨first, rest, rfl, hfirst⟩ := List.eq_append_cons_of_mem hmem
      rw [splitAt_append_sep, splitAt_of_notMem hfirst] at h
      obtain ⟨before, after, rfl, hstart, hnext⟩ := ih h (offset + byteLength first + 1)
      have hbytes : offset + byteLength (first ++ '\n' :: before) =
          offset + byteLength first + 1 + byteLength before := by
        have hnewline : '\n'.utf8Size = 1 := rfl
        rw [byteLength_append, byteLength_cons, hnewline]
        omega
      refine ⟨first ++ '\n' :: before, after, by simp, ?_, ?_⟩
      · rw [startsAfter_append hfirst, hbytes]
        exact hstart
      · rw [startsAfter_append hfirst, hbytes]
        exact hnext
    · rw [splitAt_of_notMem hmem] at h
      cases h

/-- The range of a line begins after the bytes before its piece, and is as long as the piece. -/
theorem exists_range? {text : String} {line : Nat} {piece : List Char}
    (h : (splitAt '\n' text.toList)[line]? = some piece) :
    ∃ before after, text.toList = before ++ piece ++ after ∧
      (ofText text).range? line =
        some ⟨byteLength before, byteLength before + byteLength piece⟩ := by
  obtain ⟨before, after, htext, hstart, hnext⟩ := starts_around_piece h 0
  rw [Nat.zero_add] at hstart hnext
  refine ⟨before, after, htext, ?_⟩
  rw [range?, ofText]
  simp only [hstart, hnext, Option.map_some]
  by_cases hafter : after = []
  · subst hafter
    rw [if_pos rfl, htext, List.append_nil, byteLength_append]
  · rw [if_neg hafter]
    rfl

theorem range?_eq_none_iff {text : String} {line : Nat} :
    (ofText text).range? line = none ↔ (splitAt '\n' text.toList)[line]? = none := by
  rw [← Option.not_isSome_iff_eq_none, range?_isSome, size_ofText, List.getElem?_eq_none_iff,
    length_splitAt, Nat.not_lt]

/-- **A line is a piece between newlines.** -/
theorem map_slice_range? (text : String) (line : Nat) :
    ((ofText text).range? line).map (·.slice text) =
      (splitAt '\n' text.toList)[line]?.map String.ofList := by
  cases hpiece : (splitAt '\n' text.toList)[line]? with
  | none =>
    rw [range?_eq_none_iff.mpr hpiece]
    rfl
  | some piece =>
    obtain ⟨before, after, htext, hrange⟩ := exists_range? hpiece
    rw [hrange, Option.map_some, ByteRange.slice_eq htext]
    rfl

end LineIndex

end NameResolution.Text
