import NameResolution.Proofs.RegisteredRoots

/-!
# Two tests for the base library

A policy takes a name to lie in the base library when something follows the base namespace and its
dot; the registry leaves a root out also when nothing follows. The two come apart only at a name
that ends with a dot (`isInBase_eq_isBaseLibrary`). The source name of a root ends with the simple
name of a type, so they agree on roots, whatever the packages and the base namespace are
(`mem_roots_iff_isBaseLibrary`).
-/

namespace NameResolution

namespace Dotted

theorem lastSegment_append (start : String) {name : String} (h : '.' ∉ name.toList) :
    lastSegment (start ++ "." ++ name) = name := by
  rw [lastSegment, segments_append, segments_of_notMem h, List.getLastD_concat]

/-- What follows a namespace and its dot follows the namespace, unless the name ends there. -/
theorem stripNamespace_eq_stripStart {ns name : String} (h : lastSegment name ≠ "") :
    stripNamespace ns name = stripStart (ns ++ ".") name := by
  unfold stripNamespace
  split
  case h_1 hstrip =>
    -- nothing follows, so the name ends with the dot
    have hname := stripStart_eq_some_iff.mp hstrip
    rw [hname, lastSegment_append ns (by simp)] at h
    exact absurd rfl h
  case h_2 => rfl

end Dotted

namespace TypeTable

/-- The simple names of the types are not empty, and have no dot in them. -/
def HasSimpleNames (table : TypeTable) : Prop :=
  ∀ decl ∈ table.types, decl.simpleName ≠ "" ∧ '.' ∉ decl.simpleName.toList

theorem lastSegment_below (package : Option String) {simpleName : String}
    (h : '.' ∉ simpleName.toList) : Dotted.lastSegment (below package simpleName) = simpleName := by
  cases package with
  | none =>
    show Dotted.lastSegment simpleName = simpleName
    rw [Dotted.lastSegment, Dotted.segments_of_notMem h]
    rfl
  | some package => exact Dotted.lastSegment_append package h

end TypeTable

namespace CanonicalNames

/-- **The two tests agree on names that do not end with a dot.** -/
theorem isInBase_eq_isBaseLibrary {names : CanonicalNames} {policy : Policy} {name : String}
    (hbase : names.baseNamespace = policy.baseNamespace) (h : Dotted.lastSegment name ≠ "") :
    names.isInBase name = policy.isBaseLibrary name := by
  rw [isInBase, Policy.isBaseLibrary, Dotted.stripNamespace_eq_stripStart h, hbase]

theorem baseNamespace_askAll (names : CanonicalNames) (queries : List NameQuery) :
    (names.askAll queries).2.baseNamespace = names.baseNamespace := by
  rw [askAll_eq]
  rfl

/-- A type that is asked for has its root registered, unless that is in the base library. -/
theorem mem_roots_nameOf? {table : TypeTable} {id root : TypeId} {sourceName : String}
    (baseNamespace : String) (queries : List NameQuery) (hroot : table.rootOf? id = some root)
    (hname : table.sourceName? root = some sourceName) :
    let asked := ((withBase table baseNamespace).askAll queries).2
    sourceName ∈ (asked.nameOf? id).2.roots ↔ asked.isInBase sourceName = false := by
  intro asked
  let ids := queries.filterMap NameQuery.typeId? ++ [id]
  have hasked : (asked.nameOf? id).2 = (withBase table baseNamespace).withRootsOf ids := by
    show (((withBase table baseNamespace).askAll queries).2.nameOf? id).2 = _
    rw [nameOf?_eq, askAll_eq, ← withRootsOf_append]
  have hbase : asked.baseNamespace = baseNamespace := baseNamespace_askAll _ queries
  have hknown : sourceName ∈ ids.filterMap fun id => (table.rootOf? id).bind table.sourceName? :=
    List.mem_filterMap.mpr ⟨id, List.mem_append_right _ (List.mem_singleton_self id), by
      rw [hroot, Option.bind_some, hname]⟩
  have hroots : sourceName ∈ ((withBase table baseNamespace).withRootsOf ids).roots ↔
      sourceName ∈ table.rootNames baseNamespace ids := OrderedSet.mem_ofList _ _
  rw [hasked, hroots, TypeTable.rootNames, List.mem_filter, and_iff_right hknown, isInBase, hbase,
    Option.isNone_iff_eq_none, Option.isSome_eq_false_iff, Option.isNone_iff_eq_none]

/-- **The registry leaves out what the policy takes to be in the base library.** Where types have
simple names, a type that is asked for of a provider with the base namespace of a policy has its
root registered exactly when the policy does not take the root to be in the base library. It does
not matter what the provider was asked before. -/
theorem mem_roots_iff_isBaseLibrary (policy : Policy) (table : TypeTable)
    (hacyclic : table.Acyclic) (hsimple : table.HasSimpleNames) (queries : List NameQuery)
    (id : TypeId) (hid : id < table.size) :
    let asked := ((withBase table policy.baseNamespace).askAll queries).2
    ∃ root sourceName, table.rootOf? id = some root ∧ table.sourceName? root = some sourceName ∧
      (sourceName ∈ (asked.nameOf? id).2.roots ↔ policy.isBaseLibrary sourceName = false) := by
  intro asked
  obtain ⟨asker, hget⟩ : ∃ asker, table.get? id = some asker := ⟨_, Array.getElem?_eq_getElem hid⟩
  obtain ⟨root, hrootOf⟩ := hacyclic.exists_rootOf hget
  obtain ⟨decl, hdecl, hname⟩ := hacyclic.sourceName?_of_rootOf hrootOf
  have hroot := hacyclic.rootOf?_of_rootOf hrootOf
  obtain ⟨hne, hdot⟩ := hsimple decl (Array.mem_of_getElem? hdecl)
  have hlast : Dotted.lastSegment (TypeTable.below decl.package decl.simpleName) ≠ "" := by
    rwa [TypeTable.lastSegment_below decl.package hdot]
  have hbase : asked.baseNamespace = policy.baseNamespace := baseNamespace_askAll _ queries
  refine ⟨root, _, hroot, hname, ?_⟩
  rw [← isInBase_eq_isBaseLibrary hbase hlast]
  exact mem_roots_nameOf? policy.baseNamespace queries hroot hname

/-- Roots inside the base library, at its namespace, and near it. -/
def aroundBase : TypeTable :=
  ⟨#[⟨"String", some "java.lang", none, none⟩, ⟨"Entry", none, some 0, none⟩,
    ⟨"lang", some "java", none, none⟩, ⟨"Thing", some "java.lang.", none, none⟩,
    ⟨"Thing", some "java.language", none, none⟩]⟩

theorem acyclic_aroundBase : aroundBase.Acyclic := by
  -- the one member type has the greatest rank
  refine TypeTable.acyclic_of_lt (fun id => if id = 1 then 1 else 0) fun id outer h => ?_
  match id with
  | 1 =>
    obtain rfl : 0 = outer := by simpa [TypeTable.enclosing?, TypeTable.get?, aroundBase] using h
    decide
  | 0 | 2 | 3 | 4 => simp [TypeTable.enclosing?, TypeTable.get?, aroundBase] at h
  | id + 5 => simp [TypeTable.enclosing?, TypeTable.get?, aroundBase] at h

/-- A provider that was asked for a root that is outside. -/
def askedAroundBase : CanonicalNames :=
  ((withBase aroundBase Policy.default.baseNamespace).askAll [.declared 4]).2

theorem roots_aroundBase :
    "java.lang.String" ∉ (askedAroundBase.nameOf? 1).2.roots ∧
      "java.lang" ∈ (askedAroundBase.nameOf? 2).2.roots := by
  have hsimple : aroundBase.HasSimpleNames := by
    unfold TypeTable.HasSimpleNames
    decide
  have hroots (id : TypeId) (hid : id < aroundBase.size) :=
    mem_roots_iff_isBaseLibrary .default aroundBase acyclic_aroundBase hsimple [.declared 4] id hid
  constructor
  · obtain ⟨root, name, hroot, hname, hiff⟩ := hroots 1 (by decide)
    have hstring : aroundBase.sourceName? 0 = some "java.lang.String" := by decide +kernel
    obtain rfl : 0 = root := Option.some.inj hroot
    obtain rfl := Option.some.inj (hstring.symm.trans hname)
    exact mt hiff.mp (by decide +kernel)
  · obtain ⟨root, name, hroot, hname, hiff⟩ := hroots 2 (by decide)
    have hlang : aroundBase.sourceName? 2 = some "java.lang" := by decide +kernel
    obtain rfl : 2 = root := Option.some.inj hroot
    obtain rfl := Option.some.inj (hlang.symm.trans hname)
    exact hiff.mpr (by decide +kernel)

end CanonicalNames

end NameResolution
