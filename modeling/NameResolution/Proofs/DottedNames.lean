import Mathlib.Data.List.DropRight
import Mathlib.Data.List.Infix
import NameResolution.Text.Dotted

/-!
# Beginnings of dotted names

`Dotted.stripStart` gives what follows a beginning of a text, and gives it exactly when the text has
that beginning. A name that begins with the segments of a namespace is the namespace itself or
follows it after a dot (`Dotted.segments_prefix_iff`), so taking a namespace off a name by its text
takes it off by whole segments. Taking final dots off a name takes off segments that are empty, and
what is left lies around the name (`Dotted.segments_trimDots_prefix`).
-/

namespace NameResolution.Dotted

open Text

theorem stripStart_eq_some_iff {start text rest : String} :
    stripStart start text = some rest ↔ text = start ++ rest := by
  rw [stripStart, Option.map_eq_some_iff]
  constructor
  · rintro ⟨chars, hchars, rfl⟩
    rw [← String.toList_inj, String.toList_append, String.toList_ofList]
    exact (List.isPrefixOf?_eq_some_iff_append_eq.mp hchars).symm
  · rintro rfl
    exact ⟨rest.toList, List.isPrefixOf?_eq_some_iff_append_eq.mpr String.toList_append.symm,
      String.ofList_toList⟩

theorem stripStart_eq_none_iff {start text : String} :
    stripStart start text = none ↔ ∀ rest, text ≠ start ++ rest := by
  simp only [Option.eq_none_iff_forall_ne_some, ne_eq, stripStart_eq_some_iff]

/-- What follows a namespace is not empty. -/
theorem stripNamespace_eq_some_iff {ns name rest : String} :
    stripNamespace ns name = some rest ↔ rest ≠ "" ∧ name = ns ++ "." ++ rest := by
  rw [← stripStart_eq_some_iff, stripNamespace]
  split
  case h_1 hstrip =>
    rw [hstrip]
    constructor
    · exact nofun
    · rintro ⟨hne, heq⟩
      exact absurd (Option.some.inj heq).symm hne
  case h_2 hne =>
    refine ⟨fun hstrip => ⟨?_, hstrip⟩, And.right⟩
    rintro rfl
    exact hne hstrip

/-! ## Segments -/

/-- The segments on both sides of a dot are those of both sides. -/
theorem segments_append (s t : String) : segments (s ++ "." ++ t) = segments s ++ segments t := by
  have hlist : (s ++ "." ++ t).toList = s.toList ++ '.' :: t.toList := by
    rw [String.toList_append, String.toList_append, List.append_assoc]
    rfl
  rw [segments, hlist, splitAt_append_sep, List.map_append]
  rfl

theorem dot_notMem_firstSegment (name : String) : '.' ∉ (firstSegment name).toList := by
  obtain ⟨piece, pieces, hpieces⟩ :=
    List.exists_cons_of_ne_nil (splitAt_ne_nil '.' name.toList)
  have hfirst : (firstSegment name).toList = piece := by
    rw [firstSegment, segments, hpieces]
    exact String.toList_ofList
  rw [hfirst]
  exact notMem_of_mem_splitAt (hpieces ▸ List.mem_cons_self)

theorem join_append {segs segs' : List String} (h : segs ≠ []) (h' : segs' ≠ []) :
    join (segs ++ segs') = join segs ++ "." ++ join segs' := by
  have hmap : segs.map String.toList ≠ [] := mt List.map_eq_nil_iff.mp h
  have hmap' : segs'.map String.toList ≠ [] := mt List.map_eq_nil_iff.mp h'
  rw [join, List.map_append, joinWith_append '.' hmap hmap', ← String.toList_inj]
  simp [join]

theorem segments_prefix_iff {ns name : String} :
    segments ns <+: segments name ↔ name = ns ∨ ∃ rest, name = ns ++ "." ++ rest := by
  constructor
  · rintro ⟨later, hlater⟩
    have hname : name = join (segments ns ++ later) := by rw [hlater, join_segments]
    by_cases hnil : later = []
    · left
      rw [hname, hnil, List.append_nil, join_segments]
    · right
      refine ⟨join later, ?_⟩
      rw [hname, join_append (segments_ne_nil ns) hnil, join_segments]
  · rintro (rfl | ⟨rest, rfl⟩)
    · exact List.prefix_refl _
    · rw [segments_append]
      exact List.prefix_append _ _

theorem segments_of_notMem {name : String} (h : '.' ∉ name.toList) : segments name = [name] := by
  rw [segments, splitAt_of_notMem h, List.map_singleton, String.ofList_toList]

theorem segments_inj {s t : String} : segments s = segments t ↔ s = t := by
  refine ⟨fun h => ?_, congrArg segments⟩
  rw [← join_segments s, ← join_segments t, h]

theorem length_le_of_segments_prefix {ns name : String} (h : segments ns <+: segments name) :
    ns.length ≤ name.length := by
  rcases segments_prefix_iff.mp h with rfl | ⟨rest, rfl⟩
  · exact Nat.le_refl _
  · simp only [String.length_append]
    omega

/-! ## Final dots -/

/-- What is trimmed off a text is a run of dots. -/
theorem exists_toList_eq_trimDots (name : String) :
    ∃ n, name.toList = (trimDots name).toList ++ List.replicate n '.' := by
  have hdots : ∀ c ∈ name.toList.rtakeWhile (· = '.'), c = '.' := fun c hc => by
    simpa using List.mem_rtakeWhile_imp hc
  refine ⟨(name.toList.rtakeWhile (· = '.')).length, ?_⟩
  rw [← List.eq_replicate_length.mpr hdots, trimDots, String.toList_ofList]
  exact List.rdropWhile_append_rtakeWhile.symm

theorem trimDots_ne_append (name start : String) : trimDots name ≠ start ++ "." := by
  intro heq
  have hlist : name.toList.rdropWhile (· = '.') = start.toList ++ ['.'] := by
    rw [← String.toList_inj, trimDots, String.toList_ofList, String.toList_append] at heq
    exact heq
  have hne : name.toList.rdropWhile (· = '.') ≠ [] := by simp [hlist]
  have hlast := List.rdropWhile_last_not (fun c => decide (c = '.')) name.toList hne
  simp [hlist] at hlast

/-- A text that begins with a trimmed one is not all dots, unless the trimmed one is empty. -/
theorem trimDots_ne_empty_of_prefix {name start : String} (hstart : trimDots start ≠ "")
    (h : segments (trimDots start) <+: segments name) : trimDots name ≠ "" := by
  intro hempty
  obtain ⟨n, hn⟩ := exists_toList_eq_trimDots name
  rw [hempty, String.toList_empty, List.nil_append] at hn
  have hdots : ∀ c ∈ (trimDots start).toList, c = '.' := by
    intro c hc
    have hmem : c ∈ name.toList := by
      rcases segments_prefix_iff.mp h with heq | ⟨rest, heq⟩ <;> simp [heq, hc]
    exact List.eq_of_mem_replicate (hn ▸ hmem)
  -- so the trimmed text ends with a dot
  have hne : (trimDots start).toList ≠ [] := mt String.toList_eq_nil_iff.mp hstart
  refine trimDots_ne_append start (String.ofList (trimDots start).toList.dropLast) ?_
  rw [← String.toList_inj, String.toList_append, String.toList_ofList]
  calc (trimDots start).toList
      = (trimDots start).toList.dropLast ++ [(trimDots start).toList.getLast hne] :=
        (List.dropLast_concat_getLast hne).symm
    _ = (trimDots start).toList.dropLast ++ ['.'] := by rw [hdots _ (List.getLast_mem hne)]

theorem segments_trimDots_prefix (name : String) :
    segments (trimDots name) <+: segments name := by
  obtain ⟨n, hn⟩ := exists_toList_eq_trimDots name
  rw [segments_prefix_iff]
  cases n with
  | zero => exact .inl (String.toList_inj.mp (by simpa using hn))
  | succ n =>
    refine .inr ⟨String.ofList (List.replicate n '.'), String.toList_inj.mp ?_⟩
    simpa [List.replicate_succ] using hn

/-! ## Members -/

theorem member_append (start qualifier field : String) :
    member (start ++ qualifier) field = start ++ member qualifier field := by
  unfold member
  rw [String.append_assoc, String.append_assoc, String.append_assoc]

theorem join_singleton (segment : String) : join [segment] = segment := by
  unfold join
  rw [List.map_singleton, Text.joinWith, String.ofList_toList]

/-- The members of members that fields select, one after the other. -/
theorem foldl_member {fields : List String} (h : fields ≠ []) (qualifier : String) :
    fields.foldl member qualifier = qualifier ++ "." ++ join fields := by
  induction fields generalizing qualifier with
  | nil => exact absurd rfl h
  | cons field fields ih =>
    rw [List.foldl_cons]
    cases fields with
    | nil => rw [List.foldl_nil, join_singleton, member]
    | cons next fields =>
      have hjoin := join_append (List.cons_ne_nil field []) (List.cons_ne_nil next fields)
      rw [List.singleton_append, join_singleton] at hjoin
      rw [ih (List.cons_ne_nil next fields), hjoin, member]
      simp only [String.append_assoc]

/-- A name is its first segment with the others as members. -/
theorem foldl_member_eq_join (first : String) (rest : List String) :
    rest.foldl member first = join (first :: rest) := by
  cases rest with
  | nil => rw [List.foldl_nil, join_singleton]
  | cons next rest =>
    have hjoin := join_append (List.cons_ne_nil first []) (List.cons_ne_nil next rest)
    rw [List.singleton_append, join_singleton] at hjoin
    rw [foldl_member (List.cons_ne_nil next rest), hjoin]

end NameResolution.Dotted
