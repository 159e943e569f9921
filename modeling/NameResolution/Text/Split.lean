/-!
# Cutting text at a separator

`splitAt` cuts a text at every occurrence of a character and keeps empty pieces, so a text with `n`
separators has `n + 1` pieces (`length_splitAt`) and putting the separators back gives the text
(`joinWith_splitAt`). `trimEnd` drops a run of one character from the end.
-/

namespace NameResolution.Text

/-- The pieces between the occurrences of `sep`, at least one. -/
def splitAt (sep : Char) (text : List Char) : List (List Char) :=
  text.foldr
    (fun c pieces =>
      if c = sep then [] :: pieces
      else
        match pieces with
        | [] => [[c]]
        | p :: ps => (c :: p) :: ps)
    [[]]

/-- The pieces with `sep` between neighbours. -/
def joinWith (sep : Char) : List (List Char) → List Char
  | [] => []
  | [p] => p
  | p :: q :: ps => p ++ sep :: joinWith sep (q :: ps)

/-- The text without its final run of `c`. -/
def trimEnd (c : Char) (text : List Char) : List Char :=
  (text.reverse.dropWhile (· = c)).reverse

/-! ## Pieces -/

theorem splitAt_ne_nil (sep : Char) (text : List Char) : splitAt sep text ≠ [] := by
  unfold splitAt
  cases text with
  | nil => simp
  | cons c cs =>
    rw [List.foldr_cons]
    split
    · simp
    · split <;> simp

theorem splitAt_sep (sep : Char) (text : List Char) :
    splitAt sep (sep :: text) = [] :: splitAt sep text := by
  simp [splitAt]

theorem splitAt_cons {sep c : Char} (h : c ≠ sep) (text : List Char) :
    splitAt sep (c :: text) =
      (c :: (splitAt sep text).head (splitAt_ne_nil sep text)) :: (splitAt sep text).tail := by
  have hne := splitAt_ne_nil sep text
  simp only [splitAt, List.foldr_cons, if_neg h] at hne ⊢
  split
  · rename_i he
    exact absurd he hne
  · rename_i he
    simp [he]

theorem splitAt_of_notMem {sep : Char} {text : List Char} (h : sep ∉ text) :
    splitAt sep text = [text] := by
  induction text with
  | nil => rfl
  | cons c cs ih =>
    obtain ⟨hc, hcs⟩ := not_or.mp (mt List.mem_cons.mpr h)
    rw [splitAt_cons (Ne.symm hc)]
    simp [ih hcs]

/-- The pieces on both sides of a separator are those of both sides. -/
theorem splitAt_append_sep (sep : Char) (s t : List Char) :
    splitAt sep (s ++ sep :: t) = splitAt sep s ++ splitAt sep t := by
  induction s with
  | nil => exact splitAt_sep sep t
  | cons c s ih =>
    by_cases h : c = sep
    · subst h
      rw [List.cons_append, splitAt_sep, ih, splitAt_sep, List.cons_append]
    · rw [List.cons_append, splitAt_cons h, splitAt_cons h]
      simp only [ih, List.head_append_of_ne_nil (splitAt_ne_nil sep s),
        List.tail_append_of_ne_nil (splitAt_ne_nil sep s), List.cons_append]

theorem notMem_of_mem_splitAt {sep : Char} {text piece : List Char} (h : piece ∈ splitAt sep text) :
    sep ∉ piece := by
  induction text generalizing piece with
  | nil =>
    obtain rfl := List.mem_singleton.mp h
    simp
  | cons c cs ih =>
    by_cases hc : c = sep
    · subst hc
      rw [splitAt_sep, List.mem_cons] at h
      rcases h with rfl | h
      · simp
      · exact ih h
    · rw [splitAt_cons hc, List.mem_cons] at h
      rcases h with rfl | h
      · rw [List.mem_cons, not_or]
        exact ⟨Ne.symm hc, ih (List.head_mem _)⟩
      · exact ih (List.mem_of_mem_tail h)

theorem joinWith_cons_cons (sep c : Char) (p : List Char) (ps : List (List Char)) :
    joinWith sep ((c :: p) :: ps) = c :: joinWith sep (p :: ps) := by
  cases ps <;> rfl

theorem joinWith_append (sep : Char) {ps qs : List (List Char)} (hps : ps ≠ []) (hqs : qs ≠ []) :
    joinWith sep (ps ++ qs) = joinWith sep ps ++ sep :: joinWith sep qs := by
  induction ps with
  | nil => exact absurd rfl hps
  | cons p ps ih =>
    cases ps with
    | nil =>
      obtain ⟨q, qs, rfl⟩ := List.exists_cons_of_ne_nil hqs
      rfl
    | cons p' ps =>
      have hrest := ih (List.cons_ne_nil p' ps)
      rw [List.cons_append] at hrest
      rw [List.cons_append, List.cons_append, joinWith, hrest, joinWith, List.append_assoc,
        List.cons_append]

/-- Putting the separators back gives the text. -/
theorem joinWith_splitAt (sep : Char) (text : List Char) :
    joinWith sep (splitAt sep text) = text := by
  induction text with
  | nil => rfl
  | cons c cs ih =>
    by_cases h : c = sep
    · subst h
      rw [splitAt_sep]
      cases hs : splitAt c cs with
      | nil => exact absurd hs (splitAt_ne_nil c cs)
      | cons p ps =>
        rw [hs] at ih
        simp [joinWith, ih]
    · rw [splitAt_cons h, joinWith_cons_cons, List.cons_head_tail, ih]

/-- One piece more than there are separators. -/
theorem length_splitAt (sep : Char) (text : List Char) :
    (splitAt sep text).length = text.count sep + 1 := by
  induction text with
  | nil => rfl
  | cons c cs ih =>
    by_cases h : c = sep
    · subst h
      simp [splitAt_sep, ih]
    · have hpos : 0 < (splitAt sep cs).length := List.length_pos_iff.mpr (splitAt_ne_nil sep cs)
      simp [splitAt_cons h, h, ih]

end NameResolution.Text
