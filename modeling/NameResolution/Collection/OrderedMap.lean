/-!
# Ordered maps

A finite map that lists its entries in the order in which their keys first came in. Inserting a
known key replaces its value and keeps its place, a new key goes to the end.

`find?_insert` says what a lookup sees after an insertion, `keys_insert` where the key stands.
-/

namespace NameResolution

/-- Entries in order of arrival, each key once. -/
structure OrderedMap (κ α : Type) where
  entries : List (κ × α)
  nodup_keys : (entries.map Prod.fst).Nodup

namespace OrderedMap

variable {κ α : Type}

theorem ext {m n : OrderedMap κ α} (h : m.entries = n.entries) : m = n := by
  cases m
  cases n
  simp_all

/-- The map without entries. -/
def empty : OrderedMap κ α := ⟨[], by simp⟩

instance : Inhabited (OrderedMap κ α) := ⟨empty⟩

/-- Keys in order of arrival. -/
def keys (m : OrderedMap κ α) : List κ := m.entries.map Prod.fst

/-- Values in order of arrival of their keys. -/
def values (m : OrderedMap κ α) : List α := m.entries.map Prod.snd

/-- The number of entries. -/
def size (m : OrderedMap κ α) : Nat := m.entries.length

/-- There are no entries. -/
def isEmpty (m : OrderedMap κ α) : Bool := m.entries.isEmpty

variable [DecidableEq κ]

/-- The value of a key. -/
def find? (m : OrderedMap κ α) (k : κ) : Option α := m.entries.lookup k

/-- Replaces the value of `k` where it stands, or adds it at the end. -/
def put (k : κ) (a : α) : List (κ × α) → List (κ × α)
  | [] => [(k, a)]
  | (k', a') :: rest => if k' = k then (k, a) :: rest else (k', a') :: put k a rest

theorem map_fst_put (k : κ) (a : α) (l : List (κ × α)) :
    (put k a l).map Prod.fst =
      if k ∈ l.map Prod.fst then l.map Prod.fst else l.map Prod.fst ++ [k] := by
  induction l with
  | nil => simp [put]
  | cons e rest ih =>
    obtain ⟨k', a'⟩ := e
    unfold put
    by_cases h : k' = k
    · simp [h]
    · rw [if_neg h, List.map_cons, ih]
      by_cases hk : k ∈ rest.map Prod.fst <;> simp_all [eq_comm]

/-- Sets the value of `k`: in its place when the key is known, at the end otherwise. -/
def insert (m : OrderedMap κ α) (k : κ) (a : α) : OrderedMap κ α where
  entries := put k a m.entries
  nodup_keys := by
    rw [map_fst_put]
    split
    · exact m.nodup_keys
    · rename_i h
      refine List.nodup_append.mpr ⟨m.nodup_keys, by simp, ?_⟩
      intro x hx y hy
      simp only [List.mem_singleton] at hy
      rintro rfl
      exact h (hy ▸ hx)

/-- The map that a list of entries builds, a repeated key keeping its first place and last value. -/
def ofList (l : List (κ × α)) : OrderedMap κ α :=
  l.foldl (fun m e => m.insert e.1 e.2) empty

/-- The two maps hold the same entries, in any order. -/
def sameEntries [DecidableEq α] (m n : OrderedMap κ α) : Bool :=
  m.size == n.size && m.entries.all fun e => n.find? e.1 == some e.2

/-! ## What an insertion changes -/

omit [DecidableEq κ] in
@[simp] theorem keys_empty : (empty : OrderedMap κ α).keys = [] := rfl

theorem lookup_cons_eq_ite (k k' : κ) (a : α) (l : List (κ × α)) :
    List.lookup k ((k', a) :: l) = if k = k' then some a else l.lookup k := by
  by_cases h : k = k'
  · simp [h]
  · have hb : (k == k') = false := beq_eq_false_iff_ne.mpr h
    simp [List.lookup_cons, hb, h]

theorem keys_insert (m : OrderedMap κ α) (k : κ) (a : α) :
    (m.insert k a).keys = if k ∈ m.keys then m.keys else m.keys ++ [k] :=
  map_fst_put k a m.entries

theorem lookup_put (k k' : κ) (a : α) (l : List (κ × α)) :
    (put k a l).lookup k' = if k' = k then some a else l.lookup k' := by
  induction l with
  | nil => simp [put, lookup_cons_eq_ite]
  | cons e rest ih =>
    obtain ⟨k₁, a₁⟩ := e
    by_cases h₁ : k₁ = k
    · by_cases h : k' = k <;> simp [put, lookup_cons_eq_ite, h₁, h]
    · by_cases h : k' = k₁
      · subst h
        simp [put, h₁]
      · simp [put, lookup_cons_eq_ite, h₁, h, ih]

theorem find?_insert (m : OrderedMap κ α) (k k' : κ) (a : α) :
    (m.insert k a).find? k' = if k' = k then some a else m.find? k' :=
  lookup_put k k' a m.entries

theorem find?_eq_none_iff (m : OrderedMap κ α) (k : κ) : m.find? k = none ↔ k ∉ m.keys := by
  obtain ⟨l, hl⟩ := m
  simp only [find?, keys]
  clear hl
  induction l with
  | nil => simp
  | cons e rest ih =>
    by_cases h : k = e.1 <;> simp_all

theorem put_of_not_mem (k : κ) (a : α) (l : List (κ × α)) (h : k ∉ l.map Prod.fst) :
    put k a l = l ++ [(k, a)] := by
  induction l with
  | nil => rfl
  | cons e rest ih =>
    simp only [List.map_cons, List.mem_cons, not_or] at h
    rw [put, if_neg (fun hk => h.1 hk.symm), ih h.2]
    rfl

/-- The value of a key stands beside it. -/
theorem find?_of_getElem?_entries {m : OrderedMap κ α} {i : Nat} {k : κ} {a : α}
    (h : m.entries[i]? = some (k, a)) : m.find? k = some a := by
  obtain ⟨l₁, l₂, hsplit⟩ := List.append_of_mem (List.mem_of_getElem? h)
  refine List.lookup_eq_some_iff.mpr ⟨l₁, l₂, hsplit, fun e he => ?_⟩
  have hnodup := m.nodup_keys
  rw [hsplit, List.map_append, List.nodup_append] at hnodup
  have hne : e.1 ≠ k := hnodup.2.2 e.1 (List.mem_map_of_mem he) k (by simp)
  exact bne_iff_ne.mpr hne.symm

/-- Entries stand in the order of their keys. -/
theorem getElem?_entries (m : OrderedMap κ α) (i : Nat) :
    m.entries[i]? = m.keys[i]?.bind fun k => (m.find? k).map (k, ·) := by
  rw [keys, List.getElem?_map]
  cases h : m.entries[i]? with
  | none => rfl
  | some e =>
    rw [Option.map_some, Option.bind_some, find?_of_getElem?_entries h]
    rfl

/-- A new key goes to the end. -/
theorem entries_insert_of_not_mem (m : OrderedMap κ α) (k : κ) (a : α) (h : k ∉ m.keys) :
    (m.insert k a).entries = m.entries ++ [(k, a)] :=
  put_of_not_mem k a m.entries h

/-! ## What a list builds -/

theorem entries_foldl_insert (l : List (κ × α)) (m : OrderedMap κ α)
    (h : ((m.entries ++ l).map Prod.fst).Nodup) :
    (l.foldl (fun m e => m.insert e.1 e.2) m).entries = m.entries ++ l := by
  induction l generalizing m with
  | nil => exact (List.append_nil m.entries).symm
  | cons e l ih =>
    have hnew : e.1 ∉ m.keys := by
      rw [List.map_append, List.nodup_append] at h
      exact fun he => h.2.2 e.1 he e.1 (by simp) rfl
    have hentries : (m.insert e.1 e.2).entries ++ l = m.entries ++ e :: l := by
      rw [entries_insert_of_not_mem m e.1 e.2 hnew, List.append_assoc]
      rfl
    rw [List.foldl_cons, ih _ (by rwa [hentries]), hentries]

/-- A map is what its own entries build. -/
theorem ofList_entries (m : OrderedMap κ α) : ofList m.entries = m :=
  ext (entries_foldl_insert m.entries empty m.nodup_keys)

theorem mem_keys_foldl_insert (l : List (κ × α)) (m : OrderedMap κ α) (k : κ) :
    k ∈ (l.foldl (fun m e => m.insert e.1 e.2) m).keys ↔ k ∈ m.keys ∨ k ∈ l.map Prod.fst := by
  induction l generalizing m with
  | nil => simp
  | cons e l ih =>
    have hinsert : k ∈ (m.insert e.1 e.2).keys ↔ k ∈ m.keys ∨ k = e.1 := by
      rw [keys_insert]
      split
      case isTrue he =>
        refine ⟨Or.inl, ?_⟩
        rintro (hk | rfl)
        · exact hk
        · exact he
      case isFalse => simp
    rw [List.foldl_cons, ih, hinsert, List.map_cons, List.mem_cons, or_assoc]

theorem mem_keys_ofList (l : List (κ × α)) (k : κ) : k ∈ (ofList l).keys ↔ k ∈ l.map Prod.fst := by
  rw [ofList, mem_keys_foldl_insert, keys_empty]
  simp

/-! ## Other values -/

section MapValues

variable {β : Type} (f : α → β)

omit [DecidableEq κ] in
/-- The map with another value for each key. -/
def mapValues (m : OrderedMap κ α) : OrderedMap κ β where
  entries := m.entries.map fun e => (e.1, f e.2)
  nodup_keys := by
    rw [List.map_map]
    exact m.nodup_keys

theorem find?_mapValues (m : OrderedMap κ α) (k : κ) :
    (m.mapValues f).find? k = (m.find? k).map f := by
  obtain ⟨l, hl⟩ := m
  simp only [find?, mapValues]
  clear hl
  induction l with
  | nil => rfl
  | cons e rest ih =>
    rw [List.map_cons, lookup_cons_eq_ite, lookup_cons_eq_ite, ih]
    split <;> rfl

theorem map_put (k : κ) (a : α) (l : List (κ × α)) :
    (put k a l).map (fun e => (e.1, f e.2)) = put k (f a) (l.map fun e => (e.1, f e.2)) := by
  induction l with
  | nil => rfl
  | cons e rest ih =>
    rw [put, List.map_cons, put]
    split
    · rfl
    · rw [List.map_cons, ih]

theorem mapValues_insert (m : OrderedMap κ α) (k : κ) (a : α) :
    (m.insert k a).mapValues f = (m.mapValues f).insert k (f a) :=
  ext (map_put f k a m.entries)

end MapValues

end OrderedMap

end NameResolution
