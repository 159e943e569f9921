import NameResolution.Proofs.LinePieces

/-!
# Lines cut a text up

The ranges of a line index lie one after the other, with the byte of a newline between two of them
(`LineIndex.start_eq_of_succ`), from the beginning of a text to its end. What each of them covers
lies between characters and has no newline in it (`LineIndex.liesIn_of_range?`), so putting the
newlines back between the lines gives the text (`LineIndex.intercalate_ranges`,
`LineIndex.ofText_partitions`).
-/

namespace NameResolution.Text

theorem byteLength_toList (text : String) : byteLength text.toList = text.utf8ByteSize := by
  induction text using String.push_induction with
  | empty => rfl
  | push text c ih =>
    rw [String.toList_push, byteLength_append, ih, byteLength_cons, byteLength_nil,
      String.utf8ByteSize_push, Nat.add_zero]

theorem byteLength_eq (text : List Char) : byteLength text = (String.ofList text).utf8ByteSize := by
  rw [← byteLength_toList, String.toList_ofList]

theorem joinWith_eq_intercalate (sep : Char) (pieces : List (List Char)) :
    joinWith sep pieces = [sep].intercalate pieces := by
  induction pieces with
  | nil => rfl
  | cons piece pieces ih =>
    cases pieces with
    | nil => exact List.intercalate_singleton.symm
    | cons next pieces =>
      rw [joinWith, ih, List.intercalate_cons_cons, List.append_assoc, List.singleton_append]

namespace ByteRange

/-- A range begins and ends between characters of a text, and what it covers is the part of the text
from its start to its stop. -/
structure LiesIn (r : ByteRange) (text : String) : Prop where
  start_le_stop : r.start ≤ r.stop
  stop_le : r.stop ≤ text.utf8ByteSize
  isValid_start : String.Pos.Raw.IsValid text ⟨r.start⟩
  isValid_stop : String.Pos.Raw.IsValid text ⟨r.stop⟩
  covers : ∃ before after : String, text = before ++ r.slice text ++ after ∧
    r.start = before.utf8ByteSize ∧ r.stop = (before ++ r.slice text).utf8ByteSize

/-- The range of a part of a text covers that part, and lies in the text. -/
theorem liesIn_append {text before piece after : String} (h : text = before ++ piece ++ after) :
    let r : ByteRange := ⟨before.utf8ByteSize, (before ++ piece).utf8ByteSize⟩
    r.slice text = piece ∧ r.LiesIn text := by
  intro r
  have hlist : text.toList = before.toList ++ piece.toList ++ after.toList := by
    rw [h, String.toList_append, String.toList_append]
  have hslice : r.slice text = piece := by
    have hcut := slice_eq hlist
    rw [byteLength_toList, byteLength_toList, String.ofList_toList,
      ← String.utf8ByteSize_append] at hcut
    exact hcut
  refine ⟨hslice, ?_, ?_, ?_, ?_, before, after, hslice ▸ h, rfl, by rw [hslice]⟩
  · show before.utf8ByteSize ≤ (before ++ piece).utf8ByteSize
    rw [String.utf8ByteSize_append]
    exact Nat.le_add_right _ _
  · show (before ++ piece).utf8ByteSize ≤ text.utf8ByteSize
    simp only [h, String.utf8ByteSize_append]
    omega
  · exact String.Pos.Raw.isValid_iff_exists_append.mpr
      ⟨before, piece ++ after, h.trans String.append_assoc, rfl⟩
  · exact String.Pos.Raw.isValid_iff_exists_append.mpr ⟨before ++ piece, after, h, rfl⟩

end ByteRange

namespace LineIndex

variable {index : LineIndex} {text : String} {line : Nat} {r : ByteRange}

/-! ## Where ranges begin and end -/

theorem starts_of_range? (h : index.range? line = some r) : index.starts[line]? = some r.start := by
  obtain ⟨start, hstart, rfl⟩ := Option.map_eq_some_iff.mp h
  rw [hstart]
  split <;> rfl

theorem stop_of_range?_of_some {next : Nat} (h : index.range? line = some r)
    (hnext : index.starts[line + 1]? = some next) : r.stop = next - 1 := by
  obtain ⟨start, -, rfl⟩ := Option.map_eq_some_iff.mp h
  rw [hnext]

theorem stop_of_range?_of_none (h : index.range? line = some r)
    (hnext : index.starts[line + 1]? = none) : r.stop = index.length := by
  obtain ⟨start, -, rfl⟩ := Option.map_eq_some_iff.mp h
  rw [hnext]

theorem lt_of_mem_startsAfter {offset start : Nat} {text : List Char}
    (h : start ∈ startsAfter offset text) : offset < start := by
  induction text generalizing offset with
  | nil => exact absurd h List.not_mem_nil
  | cons c text ih =>
    rw [startsAfter] at h
    split at h
    · rcases List.mem_cons.mp h with rfl | h
      · exact Nat.lt_succ_self offset
      · exact Nat.lt_of_succ_lt (ih h)
    · exact Nat.lt_of_le_of_lt (Nat.le_add_right _ _) (ih h)

/-- **Between two lines is one byte.** -/
theorem start_eq_of_succ {next : ByteRange} (h : (ofText text).range? line = some r)
    (hnext : (ofText text).range? (line + 1) = some next) : next.start = r.stop + 1 := by
  have hstart := starts_of_range? hnext
  have hpos : 0 < next.start := lt_of_mem_startsAfter (List.mem_of_getElem? hstart)
  rw [stop_of_range?_of_some h hstart]
  exact (Nat.sub_add_cancel hpos).symm

/-! ## What ranges cover -/

/-- A line lies in the text, and has no newline in it. -/
theorem liesIn_of_range? (h : (ofText text).range? line = some r) :
    r.LiesIn text ∧ '\n' ∉ (r.slice text).toList := by
  cases hpiece : (splitAt '\n' text.toList)[line]? with
  | none => simp [range?_eq_none_iff.mpr hpiece] at h
  | some piece =>
    obtain ⟨before, after, hlist, hrange⟩ := exists_range? hpiece
    have htext : text = String.ofList before ++ String.ofList piece ++ String.ofList after := by
      rw [← String.ofList_append, ← String.ofList_append, ← hlist, String.ofList_toList]
    have hr : r = ⟨(String.ofList before).utf8ByteSize,
        (String.ofList before ++ String.ofList piece).utf8ByteSize⟩ := by
      rw [String.utf8ByteSize_append, ← byteLength_eq, ← byteLength_eq]
      exact Option.some.inj (h.symm.trans hrange)
    obtain ⟨hslice, hlies⟩ := ByteRange.liesIn_append htext
    rw [hr, hslice, String.toList_ofList]
    exact ⟨hlies, notMem_of_mem_splitAt (List.mem_of_getElem? hpiece)⟩

theorem filterMap_range_getElem? {α β : Type} (f : α → β) (l : List α) :
    ((List.range l.length).filterMap fun i => l[i]?.map f) = l.map f := by
  induction l with
  | nil => rfl
  | cons a l ih =>
    rw [List.length_cons, List.range_succ_eq_map, List.filterMap_cons, List.filterMap_map,
      List.map_cons, ← ih]
    rfl

/-- **Lines with newlines between them are the text.** -/
theorem intercalate_ranges (text : String) :
    "\n".intercalate ((ofText text).ranges.map (·.slice text)) = text := by
  have hpieces : (ofText text).ranges.map (·.slice text) =
      (splitAt '\n' text.toList).map String.ofList := by
    unfold ranges
    rw [List.map_filterMap, size_ofText, ← length_splitAt]
    simp only [map_slice_range?]
    exact filterMap_range_getElem? _ _
  have hlists : ((splitAt '\n' text.toList).map String.ofList).map String.toList =
      splitAt '\n' text.toList := by
    simp
  have hnewline : "\n".toList = ['\n'] := rfl
  rw [hpieces, ← String.toList_inj, String.toList_intercalate, hlists, hnewline,
    ← joinWith_eq_intercalate, joinWith_splitAt]

/-- **A text is cut into lines.** It has one line more than it has newlines. Each line lies in the
text and has no newline in it. The first line begins where the text begins, each other one after the
byte that follows the line before it, and the last ends where the text ends. Lines with newlines
between them are the text. -/
theorem ofText_partitions (text : String) :
    (ofText text).size = text.toList.count '\n' + 1 ∧
    (∀ line, ((ofText text).range? line).isSome = true ↔ line < (ofText text).size) ∧
    (∀ line r, (ofText text).range? line = some r →
      r.LiesIn text ∧ '\n' ∉ (r.slice text).toList) ∧
    (∃ r, (ofText text).range? 0 = some r ∧ r.start = 0) ∧
    (∀ line r next, (ofText text).range? line = some r →
      (ofText text).range? (line + 1) = some next → next.start = r.stop + 1) ∧
    (∃ r, (ofText text).range? ((ofText text).size - 1) = some r ∧ r.stop = text.utf8ByteSize) ∧
    "\n".intercalate ((ofText text).ranges.map (·.slice text)) = text := by
  have hexists {line : Nat} (hline : line < (ofText text).size) :
      ∃ r, (ofText text).range? line = some r :=
    Option.isSome_iff_exists.mp ((range?_isSome _ _).mpr hline)
  have hpos : 0 < (ofText text).size := Nat.zero_lt_succ _
  refine ⟨size_ofText text, range?_isSome _, fun line r => liesIn_of_range?, ?_,
    fun line r next => start_eq_of_succ, ?_, intercalate_ranges text⟩
  · obtain ⟨r, hr⟩ := hexists hpos
    exact ⟨r, hr, (Option.some.inj (starts_of_range? hr)).symm⟩
  · obtain ⟨r, hr⟩ := hexists (Nat.sub_lt hpos Nat.zero_lt_one)
    have hlast : (ofText text).starts[(ofText text).size - 1 + 1]? = none := by
      rw [Nat.sub_add_cancel hpos]
      exact List.getElem?_eq_none (Nat.le_refl _)
    exact ⟨r, hr, (stop_of_range?_of_none hr hlast).trans (byteLength_toList text)⟩

/-- After a line of one character in two bytes comes an empty line. -/
theorem partitions_emptyLine :
    ∃ next, (ofText "é\n\nx\n").range? 1 = some next ∧ next.start = 2 + 1 ∧
      next.LiesIn "é\n\nx\n" ∧ '\n' ∉ (next.slice "é\n\nx\n").toList := by
  obtain ⟨-, hsome, hlies, -, hsucc, -⟩ := ofText_partitions "é\n\nx\n"
  have hfirst : (ofText "é\n\nx\n").range? 0 = some ⟨0, 2⟩ := by decide +kernel
  obtain ⟨next, hnext⟩ := Option.isSome_iff_exists.mp ((hsome 1).mpr (by decide +kernel))
  exact ⟨next, hnext, hsucc 0 _ next hfirst hnext, hlies 1 next hnext⟩

end LineIndex

end NameResolution.Text
