/-!
# Ordered sets

A finite set that lists its members in the order in which they first came in. `toList_insert`
gives the list after an insertion, `mem_insert` the members.
-/

namespace NameResolution

/-- Members in order of arrival, each once. -/
structure OrderedSet (α : Type) where
  toList : List α
  nodup : toList.Nodup

namespace OrderedSet

variable {α : Type}

theorem ext {s t : OrderedSet α} (h : s.toList = t.toList) : s = t := by
  cases s
  cases t
  simp_all

/-- The set without members. -/
def empty : OrderedSet α := ⟨[], by simp⟩

instance : Inhabited (OrderedSet α) := ⟨empty⟩

instance : Membership α (OrderedSet α) := ⟨fun s a => a ∈ s.toList⟩

theorem mem_def {s : OrderedSet α} {a : α} : a ∈ s ↔ a ∈ s.toList := Iff.rfl

/-- The number of members. -/
def size (s : OrderedSet α) : Nat := s.toList.length

/-- There are no members. -/
def isEmpty (s : OrderedSet α) : Bool := s.toList.isEmpty

variable [DecidableEq α]

instance (s : OrderedSet α) (a : α) : Decidable (a ∈ s) :=
  inferInstanceAs (Decidable (a ∈ s.toList))

/-- Adds a member at the end, unless it is there already. -/
def insert (s : OrderedSet α) (a : α) : OrderedSet α :=
  if h : a ∈ s.toList then s
  else
    ⟨s.toList ++ [a], by
      refine List.nodup_append.mpr ⟨s.nodup, by simp, ?_⟩
      intro x hx y hy
      simp only [List.mem_singleton] at hy
      rintro rfl
      exact h (hy ▸ hx)⟩

/-- Adds the members of a list, in its order. -/
def insertAll (s : OrderedSet α) (l : List α) : OrderedSet α := l.foldl insert s

/-- The members of a list, each at its first place. -/
def ofList (l : List α) : OrderedSet α := empty.insertAll l

/-- Adds the members of `t` that are not yet there, in the order of `t`. -/
def union (s t : OrderedSet α) : OrderedSet α := s.insertAll t.toList

/-- The two sets have the same members, in any order. -/
def sameMembers (s t : OrderedSet α) : Bool :=
  s.size == t.size && s.toList.all fun a => decide (a ∈ t)

theorem toList_insert (s : OrderedSet α) (a : α) :
    (s.insert a).toList = if a ∈ s then s.toList else s.toList ++ [a] := by
  unfold insert
  by_cases h : a ∈ s.toList <;> simp [h, mem_def]

@[simp] theorem mem_insert (s : OrderedSet α) (a b : α) : b ∈ s.insert a ↔ b ∈ s ∨ b = a := by
  simp only [mem_def, toList_insert]
  by_cases h : a ∈ s.toList
  · simp only [h, if_true]
    constructor
    · exact Or.inl
    · rintro (hb | rfl)
      · exact hb
      · exact h
  · simp [h]

@[simp] theorem mem_insertAll (s : OrderedSet α) (l : List α) (b : α) :
    b ∈ s.insertAll l ↔ b ∈ s ∨ b ∈ l := by
  induction l generalizing s with
  | nil => simp [insertAll]
  | cons a l ih =>
    rw [insertAll, List.foldl_cons, ← insertAll, ih]
    simp [or_assoc]

/-- A known member changes nothing. -/
theorem insert_of_mem {s : OrderedSet α} {a : α} (h : a ∈ s) : s.insert a = s := by
  refine ext ?_
  rw [toList_insert, if_pos h]

/-- Members keep their places. -/
theorem toList_prefix_insertAll (s : OrderedSet α) (l : List α) :
    s.toList <+: (s.insertAll l).toList := by
  induction l generalizing s with
  | nil => exact List.prefix_refl _
  | cons a l ih =>
    have hinsert : s.toList <+: (s.insert a).toList := by
      rw [toList_insert]
      split
      · exact List.prefix_refl _
      · exact List.prefix_append _ _
    exact hinsert.trans (ih (s.insert a))

theorem insertAll_append (s : OrderedSet α) (l l' : List α) :
    s.insertAll (l ++ l') = (s.insertAll l).insertAll l' :=
  List.foldl_append

/-- A list adds its new members in the order in which they first come. -/
theorem toList_insertAll (s : OrderedSet α) (l : List α) :
    (s.insertAll l).toList = s.toList ++ (l.removeAll s.toList).eraseDups := by
  induction l generalizing s with
  | nil => simp [insertAll, List.removeAll]
  | cons a l ih =>
    rw [insertAll, List.foldl_cons, ← insertAll, ih, toList_insert]
    by_cases h : a ∈ s
    · have hkeep : (a :: l).removeAll s.toList = l.removeAll s.toList := by
        have hmem : a ∈ s.toList := h
        simp [List.removeAll, hmem]
      rw [if_pos h, hkeep]
    · have hnew : (a :: l).removeAll s.toList = a :: l.removeAll s.toList := by
        have hmem : a ∉ s.toList := h
        simp [List.removeAll, hmem]
      have hrest : l.removeAll (s.toList ++ [a]) =
          (l.removeAll s.toList).filter fun b => !b == a := by
        unfold List.removeAll
        rw [List.filter_filter]
        congr 1
        funext b
        simp [Bool.and_comm, Bool.beq_eq_decide_eq]
      rw [if_neg h, hnew, hrest, List.append_assoc, List.eraseDups_cons, List.singleton_append]

/-- A list gives its members in the order in which they first come. -/
theorem toList_ofList (l : List α) : (ofList l).toList = l.eraseDups := by
  have hall : l.removeAll [] = l := by
    apply List.filter_eq_self.mpr
    simp
  rw [ofList, toList_insertAll]
  show [] ++ (l.removeAll []).eraseDups = l.eraseDups
  rw [hall, List.nil_append]

theorem eraseDups_of_nodup {l : List α} (h : l.Nodup) : l.eraseDups = l := by
  induction l with
  | nil => rfl
  | cons a l ih =>
    obtain ⟨ha, hl⟩ := List.nodup_cons.mp h
    have hother : l.filter (fun b => !b == a) = l := by
      refine List.filter_eq_self.mpr fun b hb => ?_
      simpa using fun heq : b = a => ha (heq ▸ hb)
    rw [List.eraseDups_cons, hother, ih hl]

/-- A set is what its own members build. -/
theorem ofList_toList (s : OrderedSet α) : ofList s.toList = s :=
  ext ((toList_ofList s.toList).trans (eraseDups_of_nodup s.nodup))

@[simp] theorem mem_ofList (l : List α) (a : α) : a ∈ ofList l ↔ a ∈ l := by
  rw [ofList, mem_insertAll]
  simp [empty, mem_def]

/-- Known members change nothing. -/
theorem insertAll_of_forall_mem {s : OrderedSet α} {l : List α} (h : ∀ a ∈ l, a ∈ s) :
    s.insertAll l = s := by
  induction l with
  | nil => rfl
  | cons a l ih =>
    obtain ⟨ha, hl⟩ := List.forall_mem_cons.mp h
    rw [insertAll, List.foldl_cons, ← insertAll, insert_of_mem ha, ih hl]

/-! ## Unions -/

@[simp] theorem mem_union (s t : OrderedSet α) (a : α) : a ∈ s.union t ↔ a ∈ s ∨ a ∈ t :=
  mem_insertAll s t.toList a

theorem union_insert (s t : OrderedSet α) (a : α) :
    s.union (t.insert a) = (s.union t).insert a := by
  by_cases h : a ∈ t
  · rw [insert_of_mem h, insert_of_mem ((mem_union s t a).mpr (.inr h))]
  · unfold union
    rw [toList_insert, if_neg h, insertAll_append]
    rfl

theorem union_insertAll (s t : OrderedSet α) (l : List α) :
    s.union (t.insertAll l) = (s.union t).insertAll l := by
  induction l generalizing t with
  | nil => rfl
  | cons a l ih =>
    rw [insertAll, List.foldl_cons, ← insertAll, ih, union_insert]
    rfl

/-- What a list has twice makes no difference to a union. -/
theorem union_ofList (s : OrderedSet α) (l : List α) : s.union (ofList l) = s.insertAll l :=
  union_insertAll s empty l

theorem union_of_subset {s t : OrderedSet α} (h : ∀ a, a ∈ t → a ∈ s) : s.union t = s :=
  insertAll_of_forall_mem h

theorem sameMembers_of_mem_iff {s t : OrderedSet α} (h : ∀ a, a ∈ s ↔ a ∈ t) :
    s.sameMembers t = true := by
  have hperm : s.toList.Perm t.toList := (List.perm_ext_iff_of_nodup s.nodup t.nodup).mpr h
  unfold sameMembers
  rw [Bool.and_eq_true, beq_iff_eq, List.all_eq_true]
  exact ⟨hperm.length_eq, fun a ha => decide_eq_true ((h a).mp ha)⟩

end OrderedSet

end NameResolution
