import NameResolution.Proofs.RegisteredRoots

/-!
# Registries of several runs

Each run asks a provider of its own, and the registries that come out are put together one after
the other. `registry_append` says that this is what one provider does with the questions of both
runs, whichever roots they share: the registry is a homomorphism from lists of questions to ordered
sets. What is true of any number of runs follows from it (`merge_eq_registry`,
`merge_asOneRun`).
-/

namespace NameResolution.CanonicalNames

variable (table : TypeTable) (baseNamespace : String)

/-- What a provider has registered in the end, when it is asked some questions. -/
def registry (queries : List NameQuery) : OrderedSet String :=
  ((withBase table baseNamespace).askAll queries).2.roots

/-- The registries of some runs, put together in order. -/
def merge (parts : List (List NameQuery)) : OrderedSet String :=
  (parts.map (registry table baseNamespace)).foldl OrderedSet.union .empty

/-! ## One run after the other -/

theorem registry_eq (queries : List NameQuery) :
    registry table baseNamespace queries =
      .ofList (table.rootNames baseNamespace (queries.filterMap NameQuery.typeId?)) := by
  unfold registry
  rw [askAll_eq]
  rfl

/-- **Two runs register what one run registers.** -/
theorem registry_append (queries later : List NameQuery) :
    registry table baseNamespace (queries ++ later) =
      (registry table baseNamespace queries).union (registry table baseNamespace later) := by
  rw [registry_eq, registry_eq, registry_eq, OrderedSet.union_ofList, List.filterMap_append,
    TypeTable.rootNames_append]
  exact OrderedSet.insertAll_append _ _ _

theorem merge_append (parts later : List (List NameQuery)) :
    merge table baseNamespace (parts ++ later) =
      (later.map (registry table baseNamespace)).foldl OrderedSet.union
        (merge table baseNamespace parts) := by
  unfold merge
  rw [List.map_append, List.foldl_append]

theorem merge_eq_registry (parts : List (List NameQuery)) :
    merge table baseNamespace parts = registry table baseNamespace parts.flatten := by
  -- the last run is the one that is put in last
  induction parts using List.reverseRecOn with
  | nil => rfl
  | append_singleton parts queries ih =>
    rw [merge_append, ih, List.flatten_append, registry_append, List.flatten_singleton]
    rfl

theorem mem_merge_iff {parts : List (List NameQuery)} {name : String} :
    name ∈ merge table baseNamespace parts ↔
      ∃ queries ∈ parts, name ∈ registry table baseNamespace queries := by
  induction parts using List.reverseRecOn with
  | nil => simp [merge, OrderedSet.mem_def, OrderedSet.empty]
  | append_singleton parts queries ih =>
    rw [merge_append]
    show name ∈ OrderedSet.union _ _ ↔ _
    rw [OrderedSet.mem_union, ih]
    simp [or_and_right, exists_or]

/-- **Merging the registries of several runs is one run.** The same roots come out in the same
order as from one provider that is asked everything. A registry that is merged once more changes
nothing, and another order of the runs gives the same set of roots. -/
theorem merge_asOneRun (table : TypeTable) (baseNamespace : String)
    (parts : List (List NameQuery)) :
    (merge table baseNamespace parts).toList =
        (registry table baseNamespace parts.flatten).toList ∧
      (∀ queries ∈ parts, (merge table baseNamespace parts).union
        (registry table baseNamespace queries) = merge table baseNamespace parts) ∧
      ∀ parts', parts'.Perm parts →
        (merge table baseNamespace parts').sameMembers (merge table baseNamespace parts) =
          true := by
  refine ⟨?_, ?_, ?_⟩
  · rw [merge_eq_registry]
  · intro queries hqueries
    apply OrderedSet.union_of_subset
    exact fun name hname => (mem_merge_iff table baseNamespace).mpr ⟨queries, hqueries, hname⟩
  · intro parts' hperm
    apply OrderedSet.sameMembers_of_mem_iff
    intro name
    simp only [mem_merge_iff, hperm.mem_iff]

end NameResolution.CanonicalNames
