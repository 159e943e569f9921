import NameResolution.CanonicalNames
import NameResolution.Proofs.DottedNames
import NameResolution.Proofs.EnclosingTypes

/-!
# The roots that are registered

Asking for a name has two effects that have nothing to do with each other: the answer depends on the
table alone, and the registry takes the root of the type that was asked for, if there is one outside
the base library (`CanonicalNames.ask_eq`). So after any questions the registry lists the roots of
the types in the order in which they were first asked for (`CanonicalNames.askAll_eq`), and where no
type encloses itself these are the roots that going outward leads to
(`CanonicalNames.askAll_registersRoots`).
-/

namespace NameResolution

/-- A question for a canonical name: of a declared type by its number, or of a type as the emitter
sees it. -/
inductive NameQuery where
  | declared (id : TypeId)
  | emitted (type : EmittedType)
deriving DecidableEq, Repr

/-- The declared type that is asked for. -/
def NameQuery.typeId? : NameQuery → Option TypeId
  | declared id => some id
  | emitted (.declared id) => some id
  | emitted (.other _) => none

/-- What the table has to say to a question. -/
def TypeTable.answer? (table : TypeTable) : NameQuery → Option String
  | .declared id => table.outputName? id
  | .emitted (.declared id) => table.outputName? id
  | .emitted (.other text) => some text

/-- The source names of the roots of some types, in their order; numbers that the table does not
have are left out, and so are roots inside the base namespace. -/
def TypeTable.rootNames (table : TypeTable) (baseNamespace : String) (ids : List TypeId) :
    List String :=
  (ids.filterMap fun id => (table.rootOf? id).bind table.sourceName?).filter fun name =>
    (Dotted.stripStart (baseNamespace ++ ".") name).isNone

theorem TypeTable.rootNames_append (table : TypeTable) (baseNamespace : String)
    (ids later : List TypeId) :
    table.rootNames baseNamespace (ids ++ later) =
      table.rootNames baseNamespace ids ++ table.rootNames baseNamespace later := by
  unfold rootNames
  rw [List.filterMap_append, List.filter_append]

namespace CanonicalNames

/-- Puts a question. -/
def ask (names : CanonicalNames) : NameQuery → Option String × CanonicalNames
  | .declared id => names.nameOf? id
  | .emitted type => names.emittedName? type

/-- Puts one question after the other. -/
def askAll (names : CanonicalNames) : List NameQuery → List (Option String) × CanonicalNames
  | [] => ([], names)
  | query :: queries =>
    let (answer, asked) := names.ask query
    let (answers, asked) := asked.askAll queries
    (answer :: answers, asked)

/-- The provider with the roots of some types added to the registry. -/
def withRootsOf (names : CanonicalNames) (ids : List TypeId) : CanonicalNames :=
  { names with
    roots := names.roots.insertAll (names.types.rootNames names.baseNamespace ids) }

variable (names : CanonicalNames)

/-! ## What a question does -/

theorem withRootsOf_append (ids later : List TypeId) :
    names.withRootsOf (ids ++ later) = (names.withRootsOf ids).withRootsOf later := by
  unfold withRootsOf
  rw [TypeTable.rootNames_append, OrderedSet.insertAll_append]

theorem rootNames_singleton (table : TypeTable) (baseNamespace : String) (id : TypeId) :
    table.rootNames baseNamespace [id] =
      ((table.rootOf? id).bind table.sourceName?).toList.filter fun name =>
        (Dotted.stripStart (baseNamespace ++ ".") name).isNone := by
  unfold TypeTable.rootNames
  cases h : (table.rootOf? id).bind table.sourceName? <;> simp [h]

theorem register_of_rootOf? {id root : TypeId} (hroot : names.types.rootOf? id = some root) :
    names.register root = names.withRootsOf [id] := by
  unfold register withRootsOf isInBase
  rw [rootNames_singleton, hroot, Option.bind_some]
  cases names.types.sourceName? root with
  | none => rfl
  | some sourceName =>
    simp only [Option.toList_some, List.filter_singleton]
    cases Dotted.stripStart (names.baseNamespace ++ ".") sourceName <;> rfl

/-- A type has an output name when it has a root. -/
theorem isSome_outputName? (table : TypeTable) (id : TypeId) :
    (table.outputName? id).isSome = (table.rootOf? id).isSome := by
  simp [TypeTable.outputName?, TypeTable.nestingPath?, TypeTable.rootOf?]

theorem nameOf?_eq (id : TypeId) :
    names.nameOf? id = (names.types.outputName? id, names.withRootsOf [id]) := by
  have hsome := isSome_outputName? names.types id
  unfold nameOf?
  cases hroot : names.types.rootOf? id with
  | none =>
    have hnil : names.types.rootNames names.baseNamespace [id] = [] := by
      rw [rootNames_singleton, hroot]
      rfl
    unfold withRootsOf
    rw [hnil]
    cases names.types.outputName? id <;> rfl
  | some root =>
    rw [← names.register_of_rootOf? hroot]
    cases hname : names.types.outputName? id with
    | none => simp [hroot, hname] at hsome
    | some name => rfl

theorem ask_eq (query : NameQuery) :
    names.ask query = (names.types.answer? query, names.withRootsOf query.typeId?.toList) := by
  cases query with
  | declared id => exact names.nameOf?_eq id
  | emitted type =>
    cases type with
    | declared id => exact names.nameOf?_eq id
    | other text => rfl

/-- **Questions are answered from the table, and register the roots of the types in turn.** -/
theorem askAll_eq (queries : List NameQuery) :
    names.askAll queries = (queries.map names.types.answer?,
      names.withRootsOf (queries.filterMap NameQuery.typeId?)) := by
  induction queries generalizing names with
  | nil => rfl
  | cons query queries ih =>
    have hids : (query :: queries).filterMap NameQuery.typeId? =
        query.typeId?.toList ++ queries.filterMap NameQuery.typeId? := by
      rw [List.filterMap_cons]
      cases query.typeId? <;> rfl
    unfold askAll
    rw [hids, withRootsOf_append, ask_eq]
    simp only [ih]
    rfl

end CanonicalNames

/-! ## The registry -/

namespace TypeTable

variable {table : TypeTable} {baseNamespace : String}

/-- In a table without cycles, the roots are those that going outward leads to. -/
theorem Acyclic.mem_rootNames_iff (hacyclic : table.Acyclic) {ids : List TypeId} {name : String} :
    name ∈ table.rootNames baseNamespace ids ↔
      ∃ id ∈ ids, ∃ root decl, table.RootOf id root ∧ table.get? root = some decl ∧
        name = below decl.package decl.simpleName ∧
          ∀ rest, name ≠ baseNamespace ++ "." ++ rest := by
  unfold rootNames
  rw [List.mem_filter, List.mem_filterMap, Option.isNone_iff_eq_none,
    Dotted.stripStart_eq_none_iff]
  constructor
  · rintro ⟨⟨id, hid, hname⟩, houtside⟩
    obtain ⟨root, hroot, hname⟩ := Option.bind_eq_some_iff.mp hname
    have hrootOf := hacyclic.rootOf?_eq_some_iff.mp hroot
    obtain ⟨decl, hget, hsource⟩ := hacyclic.sourceName?_of_rootOf hrootOf
    exact ⟨id, hid, root, decl, hrootOf, hget, Option.some.inj (hname.symm.trans hsource),
      houtside⟩
  · rintro ⟨id, hid, root, decl, hrootOf, hget, rfl, houtside⟩
    obtain ⟨decl', hget', hsource⟩ := hacyclic.sourceName?_of_rootOf hrootOf
    obtain rfl : decl = decl' := Option.some.inj (hget.symm.trans hget')
    refine ⟨⟨id, hid, ?_⟩, houtside⟩
    rw [hacyclic.rootOf?_of_rootOf hrootOf, Option.bind_some, hsource]

theorem rootNames_eq_nil {ids : List TypeId} (h : ∀ id ∈ ids, table.get? id = none) :
    table.rootNames baseNamespace ids = [] := by
  have hnone : ids.filterMap (fun id => (table.rootOf? id).bind table.sourceName?) = [] := by
    refine List.filterMap_eq_nil_iff.mpr fun id hid => ?_
    rw [rootOf?_of_get?_eq_none (h id hid)]
    rfl
  unfold rootNames
  rw [hnone, List.filter_nil]

end TypeTable

namespace CanonicalNames

/-- A question about no type of the table changes nothing. -/
theorem ask_snd_of_unknown (names : CanonicalNames) {query : NameQuery}
    (h : ∀ id, query.typeId? = some id → names.types.get? id = none) :
    (names.ask query).2 = names := by
  have hnil : names.types.rootNames names.baseNamespace query.typeId?.toList = [] :=
    TypeTable.rootNames_eq_nil fun id hid => h id (Option.mem_toList.mp hid)
  rw [ask_eq]
  unfold withRootsOf
  rw [hnil]
  rfl

/-- **The registry lists the roots of the types that were asked for.** It has each of them once, by
source name and in the order in which they first came, and no root of the base library. Nothing that
was asked before bears on an answer, a question about no type of the table leaves everything as it
was, and what is registered stays. -/
theorem askAll_registersRoots (table : TypeTable) (hacyclic : table.Acyclic)
    (baseNamespace : String) (queries : List NameQuery) :
    let fresh := withBase table baseNamespace
    let after := fun queries => (fresh.askAll queries).2
    (fresh.askAll queries).1 = queries.map (fun query => (fresh.ask query).1) ∧
    (after queries).roots.toList =
      (table.rootNames baseNamespace (queries.filterMap NameQuery.typeId?)).eraseDups ∧
    (∀ name, name ∈ (after queries).roots ↔
      ∃ query ∈ queries, ∃ id root decl, query.typeId? = some id ∧ table.RootOf id root ∧
        table.get? root = some decl ∧ name = TypeTable.below decl.package decl.simpleName ∧
          ∀ rest, name ≠ baseNamespace ++ "." ++ rest) ∧
    (∀ query, (∀ id, query.typeId? = some id → table.get? id = none) →
      ((after queries).ask query).2 = after queries) ∧
    ∀ before later, queries = before ++ later →
      (after before).roots.toList <+: (after queries).roots.toList := by
  intro fresh after
  have hafter (queries : List NameQuery) :
      after queries = fresh.withRootsOf (queries.filterMap NameQuery.typeId?) := by
    show (fresh.askAll queries).2 = _
    rw [askAll_eq]
  have hlist : (after queries).roots.toList =
      (table.rootNames baseNamespace (queries.filterMap NameQuery.typeId?)).eraseDups := by
    rw [hafter]
    exact OrderedSet.toList_ofList _
  refine ⟨?_, hlist, fun name => ?_, fun query hunknown => ?_, ?_⟩
  · rw [askAll_eq]
    apply List.map_congr_left
    intro query _
    rw [ask_eq]
  · rw [OrderedSet.mem_def, hlist, List.mem_eraseDups, hacyclic.mem_rootNames_iff]
    constructor
    · rintro ⟨id, hid, root, decl, hroot⟩
      obtain ⟨query, hquery, hasked⟩ := List.mem_filterMap.mp hid
      exact ⟨query, hquery, id, root, decl, hasked, hroot⟩
    · rintro ⟨query, hquery, id, root, decl, hasked, hroot⟩
      exact ⟨id, List.mem_filterMap.mpr ⟨query, hquery, hasked⟩, root, decl, hroot⟩
  · refine ask_snd_of_unknown _ ?_
    rw [hafter]
    exact hunknown
  · rintro before later rfl
    rw [hafter, hafter, List.filterMap_append, withRootsOf_append]
    exact OrderedSet.toList_prefix_insertAll _ _

/-- A member type that comes before its root, two roots of one name, and a base class. -/
def mixedTypes : TypeTable :=
  ⟨#[⟨"Part", none, some 1, none⟩, ⟨"Whole", some "app", none, some "out"⟩,
    ⟨"Whole", some "app", none, none⟩, ⟨"String", some "java.lang", none, none⟩,
    ⟨"Thing", some "java.language", none, none⟩]⟩

theorem acyclic_mixedTypes : mixedTypes.Acyclic := by
  -- the one member type has the greatest rank
  refine TypeTable.acyclic_of_lt (fun id => if id = 0 then 1 else 0) fun id outer h => ?_
  match id with
  | 0 =>
    obtain rfl : 1 = outer := by simpa [TypeTable.enclosing?, TypeTable.get?, mixedTypes] using h
    decide
  | 1 | 2 | 3 | 4 => simp [TypeTable.enclosing?, TypeTable.get?, mixedTypes] at h
  | id + 5 => simp [TypeTable.enclosing?, TypeTable.get?, mixedTypes] at h

theorem registersRoots_mixedTypes :
    let after := fun queries => ((withBase mixedTypes "java.lang").askAll queries).2
    let queries := [.declared 4, .emitted (.declared 0), .emitted (.other "int[]"), .declared 3,
      .declared 2, .declared 9, .declared 4]
    (after queries).roots.toList = ["java.language.Thing", "app.Whole"] ∧
      ((after queries).ask (.declared 9)).2 = after queries ∧
      (after [.declared 4]).roots.toList <+: (after queries).roots.toList := by
  obtain ⟨-, hlist, -, hunknown, hprefix⟩ :=
    askAll_registersRoots mixedTypes acyclic_mixedTypes "java.lang"
      [.declared 4, .emitted (.declared 0), .emitted (.other "int[]"), .declared 3, .declared 2,
        .declared 9, .declared 4]
  refine ⟨hlist.trans (by decide +kernel), hunknown (.declared 9) fun id hid => ?_,
    hprefix [.declared 4] _ rfl⟩
  obtain rfl : 9 = id := Option.some.inj hid
  rfl

end CanonicalNames

end NameResolution
