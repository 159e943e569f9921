import Mathlib.Data.List.Induction
import NameResolution.Proofs.RegisteredFiles
import NameResolution.Scope.Builder
import NameResolution.Syntax.Build
import NameResolution.Workspace

/-!
# Files are resolved on their own

A workspace is filled by calls that add the trees of a path. What it holds afterwards can be read
off the calls: its files are the paths in the order in which they first came (`distinctPaths`), and
each has the trees of the last call for its path (`latest?`), whatever else came in between
(`Workspace.Holds`). So a run has one outcome for each path, and it is the outcome of that file
alone (`Workspace.resolveAll_independent`).
-/

namespace NameResolution

open Text (FilePath)

/-- A call that adds the trees of a path to a workspace, some with the text of the file. -/
structure Addition where
  path : String
  text : Option String
  root : Node
  scopes : ScopeTree

namespace Addition

/-- The path as paths are compared. -/
def filePath (a : Addition) : FilePath := .ofSpelling a.path

/-- What is resolved for the file. -/
def unit (a : Addition) (file : FileId) : SourceUnit := ⟨file, a.root, a.scopes⟩

end Addition

/-- The paths of some calls, each where it first came. -/
def distinctPaths (additions : List Addition) : List FilePath :=
  (OrderedSet.ofList (additions.map Addition.filePath)).toList

/-- The last call for a path. -/
def latest? (additions : List Addition) (path : FilePath) : Option Addition :=
  (additions.filter (·.filePath = path)).getLast?

namespace Workspace

/-- Makes the call, and gives the file that it answers. -/
def perform (ws : Workspace) (a : Addition) : FileId × Workspace :=
  match a.text with
  | none => ws.add a.path a.root a.scopes
  | some text => ws.addSource a.path text a.root a.scopes

/-- The workspace after some calls. -/
def ofAdditions (additions : List Addition) : Workspace :=
  additions.foldl (fun ws a => (ws.perform a).2) .empty

/-- One of the calls is `a`, and it answers `file`. -/
def Answers (additions : List Addition) (a : Addition) (file : FileId) : Prop :=
  ∃ before after, additions = before ++ a :: after ∧ ((ofAdditions before).perform a).1 = file

end Workspace

/-- The diagnostic of a file that was stopped. -/
def Report.failure? : Except ResolveError Resolution → Option Diagnostic
  | .ok _ => none
  | .error e => some e.toDiagnostic

/-! ## What can be read off the calls -/

section Calls

variable (additions : List Addition) (a : Addition) (path : FilePath)

theorem nodup_distinctPaths : (distinctPaths additions).Nodup := OrderedSet.nodup _

theorem distinctPaths_append (before after : List Addition) : distinctPaths (before ++ after) =
    ((OrderedSet.ofList (before.map Addition.filePath)).insertAll
      (after.map Addition.filePath)).toList := by
  rw [distinctPaths, List.map_append, OrderedSet.ofList, OrderedSet.insertAll_append]
  rfl

theorem distinctPaths_concat : distinctPaths (additions ++ [a]) =
    if a.filePath ∈ distinctPaths additions then distinctPaths additions
    else distinctPaths additions ++ [a.filePath] := by
  rw [distinctPaths_append]
  exact OrderedSet.toList_insert _ _

theorem getElem?_distinctPaths_concat {additions : List Addition} {a : Addition} {path : FilePath}
    {k : Nat} (h : (distinctPaths (additions ++ [a]))[k]? = some path) (hne : a.filePath ≠ path) :
    (distinctPaths additions)[k]? = some path := by
  rw [distinctPaths_concat] at h
  split at h
  · exact h
  · rw [List.getElem?_append] at h
    split at h
    · exact h
    · exact absurd (List.mem_singleton.mp (List.mem_of_getElem? h)).symm hne

theorem latest?_concat : latest? (additions ++ [a]) path =
    if a.filePath = path then some a else latest? additions path := by
  rw [latest?, List.filter_append]
  by_cases h : a.filePath = path
  · simp [h]
  · simp [h, latest?]

theorem mem_distinctPaths {additions : List Addition} {path : FilePath} :
    path ∈ distinctPaths additions ↔ ∃ a ∈ additions, a.filePath = path := by
  rw [distinctPaths, ← OrderedSet.mem_def, OrderedSet.mem_ofList, List.mem_map]

theorem exists_latest? {additions : List Addition} {path : FilePath}
    (h : path ∈ distinctPaths additions) : ∃ a, latest? additions path = some a := by
  obtain ⟨a, ha, hpath⟩ := mem_distinctPaths.mp h
  refine Option.ne_none_iff_exists'.mp fun hnone => ?_
  have hnil : additions.filter (·.filePath = path) = [] := List.getLast?_eq_none_iff.mp hnone
  exact List.filter_eq_nil_iff.mp hnil a ha (by simpa using hpath)

theorem distinctPaths_prefix (before after : List Addition) :
    distinctPaths before <+: distinctPaths (before ++ after) := by
  rw [distinctPaths_append]
  exact OrderedSet.toList_prefix_insertAll _ _

/-- Calls for other paths do not matter. -/
theorem latest?_insert (before after : List Addition) {a : Addition} {path : FilePath}
    (h : a.filePath ≠ path) :
    latest? (before ++ a :: after) path = latest? (before ++ after) path := by
  rw [latest?, latest?, List.filter_append, List.filter_append,
    List.filter_cons_of_neg (by simpa using h)]

/-- A path that comes again stays where it is. -/
theorem distinctPaths_again {before : List Addition} {a : Addition} (after : List Addition)
    (h : a.filePath ∈ distinctPaths before) :
    distinctPaths (before ++ a :: after) = distinctPaths (before ++ after) := by
  have hinsert : (OrderedSet.ofList (before.map Addition.filePath)).insert a.filePath =
      OrderedSet.ofList (before.map Addition.filePath) := OrderedSet.insert_of_mem h
  rw [distinctPaths_append, distinctPaths_append, List.map_cons, OrderedSet.insertAll,
    List.foldl_cons, hinsert]
  rfl

theorem distinctPaths_congr {before after : List Addition} {a a' : Addition}
    (h : a'.filePath = a.filePath) :
    distinctPaths (before ++ a' :: after) = distinctPaths (before ++ a :: after) := by
  rw [distinctPaths, distinctPaths, List.map_append, List.map_append, List.map_cons, List.map_cons,
    h]

end Calls

/-! ## What a workspace holds -/

namespace Workspace

variable {ws : Workspace} {additions : List Addition}

/-- The workspace holds the files of some calls, and nothing else. -/
structure Holds (ws : Workspace) (additions : List Addition) : Prop where
  filePaths_eq : ws.files.filePaths = distinctPaths additions
  keys_eq : ws.units.keys = (List.range (distinctPaths additions).length).map FileId.mk
  unit?_eq : ∀ k path, (distinctPaths additions)[k]? = some path →
    ws.unit? ⟨k⟩ = (latest? additions path).map (·.unit ⟨k⟩)

theorem holds_empty : empty.Holds [] where
  filePaths_eq := rfl
  keys_eq := rfl
  unit?_eq := fun _ _ h => nomatch h

/-- A call registers its path and sets the unit of the file. -/
theorem perform_spec (ws : Workspace) (a : Addition) :
    (ws.perform a).1 = (ws.files.register a.path).1 ∧
      (ws.perform a).2.files.filePaths = (ws.files.register a.path).2.filePaths ∧
      (ws.perform a).2.units = ws.units.insert (ws.perform a).1 (a.unit (ws.perform a).1) := by
  rw [perform]
  cases a.text <;> exact ⟨rfl, rfl, rfl⟩

theorem Holds.filePaths_perform (h : ws.Holds additions) (a : Addition) :
    (ws.perform a).2.files.filePaths = distinctPaths (additions ++ [a]) ∧
      (distinctPaths (additions ++ [a]))[(ws.perform a).1.index]? = some a.filePath := by
  obtain ⟨hfile, hpaths, -⟩ := ws.perform_spec a
  obtain ⟨hregister, hplace⟩ := ws.files.register_spec a.path
  have hpaths' : (ws.files.register a.path).2.filePaths = distinctPaths (additions ++ [a]) := by
    rw [hregister, h.filePaths_eq, distinctPaths_concat]
    rfl
  rw [hpaths'] at hplace
  rw [hpaths, hfile]
  exact ⟨hpaths', hplace⟩

theorem Holds.mem_keys_iff (h : ws.Holds additions) {file : FileId} :
    file ∈ ws.units.keys ↔ file.index < (distinctPaths additions).length := by
  rw [h.keys_eq, List.mem_map]
  constructor
  · rintro ⟨k, hk, rfl⟩
    exact List.mem_range.mp hk
  · intro hlt
    exact ⟨file.index, List.mem_range.mpr hlt, rfl⟩

theorem Holds.keys_perform (h : ws.Holds additions) (a : Addition) :
    (ws.perform a).2.units.keys =
      (List.range (distinctPaths (additions ++ [a])).length).map FileId.mk := by
  obtain ⟨-, -, hunits⟩ := ws.perform_spec a
  obtain ⟨-, hplace⟩ := h.filePaths_perform a
  obtain ⟨hlt, -⟩ := List.getElem?_eq_some_iff.mp hplace
  rw [hunits, OrderedMap.keys_insert]
  by_cases hknown : a.filePath ∈ distinctPaths additions
  · -- the file has a unit already, which keeps its place
    rw [distinctPaths_concat, if_pos hknown] at hlt ⊢
    rw [if_pos (h.mem_keys_iff.mpr hlt), h.keys_eq]
  · -- the call answers the next number, which no unit has
    rw [distinctPaths_concat, if_neg hknown] at hplace hlt ⊢
    rw [List.length_append, List.length_singleton] at hlt ⊢
    have hlast : (ws.perform a).1.index = (distinctPaths additions).length := by
      refine Nat.le_antisymm (Nat.le_of_lt_succ hlt) (Nat.le_of_not_lt fun hold => hknown ?_)
      rw [List.getElem?_append_left hold] at hplace
      exact List.mem_of_getElem? hplace
    have hnew : (ws.perform a).1 ∉ ws.units.keys := by
      rw [h.mem_keys_iff, hlast]
      exact Nat.lt_irrefl _
    rw [if_neg hnew, h.keys_eq, List.range_succ, List.map_append, ← hlast]
    rfl

/-- What one call changes: its path comes to the end if it is new, and its unit is the latest. -/
theorem Holds.perform (h : ws.Holds additions) (a : Addition) :
    (ws.perform a).2.Holds (additions ++ [a]) := by
  obtain ⟨-, -, hunits⟩ := ws.perform_spec a
  obtain ⟨hpaths, hplace⟩ := h.filePaths_perform a
  refine ⟨hpaths, h.keys_perform a, fun k path hpath => ?_⟩
  rw [unit?, hunits, OrderedMap.find?_insert, latest?_concat]
  by_cases hk : (ws.perform a).1 = ⟨k⟩
  · rw [hk, hpath, Option.some.injEq] at hplace
    rw [if_pos hk.symm, if_pos hplace.symm, hk]
    rfl
  · -- a path stands at one place only, so this one is not the path of the call
    have hne : a.filePath ≠ path := by
      rintro rfl
      exact hk (FileId.eq_of_getElem? (nodup_distinctPaths _) hplace hpath)
    rw [if_neg fun heq => hk heq.symm, if_neg hne]
    exact h.unit?_eq k path (getElem?_distinctPaths_concat hpath hne)

theorem holds_ofAdditions (additions : List Addition) :
    (ofAdditions additions).Holds additions := by
  induction additions using List.reverseRecOn with
  | nil => exact holds_empty
  | append_singleton additions a ih =>
    rw [ofAdditions, List.foldl_append]
    exact ih.perform a

/-- The unit of a path stands at the place of the path. -/
theorem Holds.getElem?_units (h : ws.Holds additions) {k : Nat} {path : FilePath}
    (hpath : (distinctPaths additions)[k]? = some path) :
    ∃ a, latest? additions path = some a ∧ ws.units.entries[k]? = some (⟨k⟩, a.unit ⟨k⟩) := by
  obtain ⟨a, ha⟩ := exists_latest? (List.mem_of_getElem? hpath)
  obtain ⟨hlt, -⟩ := List.getElem?_eq_some_iff.mp hpath
  have hunit : ws.units.find? ⟨k⟩ = some (a.unit ⟨k⟩) := by
    rw [← unit?, h.unit?_eq k path hpath, ha]
    rfl
  have hkey : ws.units.keys[k]? = some ⟨k⟩ := by
    rw [h.keys_eq, List.getElem?_map, List.getElem?_range hlt]
    rfl
  refine ⟨a, ha, ?_⟩
  rw [OrderedMap.getElem?_entries, hkey, Option.bind_some, hunit]
  rfl

theorem Holds.file_eq (h : ws.Holds additions) {entry : FileId × SourceUnit}
    (hentry : entry ∈ ws.units.entries) : entry.2.file = entry.1 := by
  obtain ⟨k, hk⟩ := List.mem_iff_getElem?.mp hentry
  have hlt : k < (distinctPaths additions).length := by
    have hlength : ws.units.entries.length = (distinctPaths additions).length := by
      rw [← List.length_map Prod.fst, ← OrderedMap.keys, h.keys_eq, List.length_map,
        List.length_range]
    rw [← hlength]
    exact (List.getElem?_eq_some_iff.mp hk).1
  obtain ⟨a, -, hunit⟩ := h.getElem?_units (List.getElem?_eq_getElem hlt)
  rw [hk, Option.some.injEq] at hunit
  rw [hunit]
  rfl

/-- Every call answers the place of its path. -/
theorem getElem?_distinctPaths_of_answers {a : Addition} {file : FileId}
    (h : Answers additions a file) : (distinctPaths additions)[file.index]? = some a.filePath := by
  obtain ⟨before, after, rfl, rfl⟩ := h
  obtain ⟨-, hplace⟩ := (holds_ofAdditions before).filePaths_perform a
  obtain ⟨hlt, heq⟩ := List.getElem?_eq_some_iff.mp hplace
  have hprefix := distinctPaths_prefix (before ++ [a]) after
  rw [List.append_assoc, List.singleton_append] at hprefix
  obtain ⟨later, hlater⟩ := hprefix
  rw [← hlater, List.getElem?_append_left hlt, hplace]

theorem exists_answers {file : FileId} (h : file.index < (distinctPaths additions).length) :
    ∃ a, Answers additions a file := by
  obtain ⟨a, ha, hpath⟩ := mem_distinctPaths.mp (List.getElem_mem h)
  obtain ⟨before, after, rfl⟩ := List.append_of_mem ha
  have hanswers : Answers (before ++ a :: after) a ((ofAdditions before).perform a).1 :=
    ⟨before, after, rfl, rfl⟩
  have hfile := FileId.eq_of_getElem? (nodup_distinctPaths _)
    (getElem?_distinctPaths_of_answers hanswers)
    ((List.getElem?_eq_getElem h).trans (congrArg some hpath.symm))
  exact ⟨a, hfile ▸ hanswers⟩

end Workspace

/-! ## What a run reports -/

/-- The outcome of a unit on its own. -/
def SourceUnit.outcome (policy : Policy) (unit : SourceUnit) :
    FileId × Except ResolveError Resolution :=
  (unit.file, resolveFile unit.file unit.root unit.scopes policy)

namespace Report

/-- A report goes on by one outcome a unit, and one diagnostic for each that was stopped. -/
theorem foldl_add (policy : Policy) (units : List SourceUnit) (report : Report) :
    let report' := units.foldl (fun report unit =>
      report.add unit.file (resolveFile unit.file unit.root unit.scopes policy)) report
    report'.outcomes =
        (units.map (SourceUnit.outcome policy)).foldl (fun m e => m.insert e.1 e.2)
          report.outcomes ∧
      report'.diagnostics.entries = report.diagnostics.entries ++
        (units.map (SourceUnit.outcome policy)).filterMap fun e => failure? e.2 := by
  induction units generalizing report with
  | nil => exact ⟨rfl, (List.append_nil _).symm⟩
  | cons unit units ih =>
    obtain ⟨houtcomes, hdiagnostics⟩ := ih
      (report.add unit.file (resolveFile unit.file unit.root unit.scopes policy))
    refine ⟨houtcomes, hdiagnostics.trans ?_⟩
    rw [List.map_cons, List.filterMap_cons, SourceUnit.outcome]
    cases resolveFile unit.file unit.root unit.scopes policy with
    | ok r => rfl
    | error e =>
      show (_ ++ [_]) ++ _ = _
      rw [List.append_assoc]
      rfl

theorem isClean_iff {report : Report}
    (h : report.diagnostics.entries = report.outcomes.values.filterMap failure?) :
    report.isClean = true ↔ ∀ outcome ∈ report.outcomes.values, ∃ r, outcome = .ok r := by
  rw [isClean, DiagnosticLog.hasErrors, h, Bool.not_eq_true', List.any_eq_false]
  constructor
  · intro hclean outcome houtcome
    cases outcome with
    | ok r => exact ⟨r, rfl⟩
    | error e =>
      exact absurd rfl (hclean e.toDiagnostic (List.mem_filterMap.mpr ⟨_, houtcome, rfl⟩))
  · intro hok d hd
    obtain ⟨outcome, houtcome, hfailure⟩ := List.mem_filterMap.mp hd
    obtain ⟨r, rfl⟩ := hok outcome houtcome
    cases hfailure

/-- Of a file with an outcome there is either a resolution or an error. -/
theorem resolution?_error?_iff (report : Report) (file : FileId) :
    ¬ ((report.resolution? file).isSome = true ∧ (report.error? file).isSome = true) ∧
      ((report.resolution? file).isSome = true ∨ (report.error? file).isSome = true ↔
        file ∈ report.outcomes.keys) := by
  have hkey := OrderedMap.find?_eq_none_iff report.outcomes file
  rw [resolution?, error?]
  cases hfind : report.outcomes.find? file with
  | none => simp [hkey.mp hfind]
  | some outcome =>
    have hmem : file ∈ report.outcomes.keys := by
      refine Classical.byContradiction fun hnot => ?_
      cases hfind.symm.trans (hkey.mpr hnot)
    cases outcome <;> simp [hmem]

end Report

namespace Workspace

section Run

variable {ws : Workspace} {additions : List Addition} (policy : Policy)

theorem Holds.map_fst_outcome (h : ws.Holds additions) :
    (ws.units.values.map (SourceUnit.outcome policy)).map Prod.fst = ws.units.keys := by
  rw [OrderedMap.values, OrderedMap.keys, List.map_map, List.map_map]
  exact List.map_congr_left fun entry hentry => h.file_eq hentry

/-- A run lists the outcomes of the units in their order. -/
theorem Holds.entries_resolveAll (h : ws.Holds additions) :
    (ws.resolveAll policy).outcomes.entries = ws.units.values.map (SourceUnit.outcome policy) := by
  obtain ⟨houtcomes, -⟩ := Report.foldl_add policy ws.units.values .empty
  rw [resolveAll, houtcomes]
  refine OrderedMap.entries_foldl_insert _ _ ?_
  show ((ws.units.values.map (SourceUnit.outcome policy)).map Prod.fst).Nodup
  rw [h.map_fst_outcome policy]
  exact ws.units.nodup_keys

theorem Holds.diagnostics_resolveAll (h : ws.Holds additions) :
    (ws.resolveAll policy).diagnostics.entries =
      (ws.resolveAll policy).outcomes.values.filterMap Report.failure? := by
  obtain ⟨-, hdiagnostics⟩ := Report.foldl_add policy ws.units.values .empty
  rw [OrderedMap.values, h.entries_resolveAll policy, List.filterMap_map]
  exact hdiagnostics

theorem Holds.keys_resolveAll (h : ws.Holds additions) :
    (ws.resolveAll policy).outcomes.keys = ws.units.keys := by
  rw [OrderedMap.keys, h.entries_resolveAll policy, h.map_fst_outcome policy]

/-- The outcome of a path stands at its place, and is that of its last trees alone. -/
theorem Holds.getElem?_outcomes (h : ws.Holds additions) {k : Nat} {path : FilePath}
    (hpath : (distinctPaths additions)[k]? = some path) :
    ∃ a, latest? additions path = some a ∧ (ws.resolveAll policy).outcomes.entries[k]? =
      some (⟨k⟩, resolveFile ⟨k⟩ a.root a.scopes policy) := by
  obtain ⟨a, ha, hunit⟩ := h.getElem?_units hpath
  refine ⟨a, ha, ?_⟩
  rw [h.entries_resolveAll policy, OrderedMap.values, List.map_map, List.getElem?_map, hunit]
  rfl

/-- What a run reports of a file depends on the place of its path and on its last trees. -/
theorem Holds.find?_outcomes (h : ws.Holds additions) (file : FileId) :
    (ws.resolveAll policy).outcomes.find? file =
      (distinctPaths additions)[file.index]?.bind fun path =>
        (latest? additions path).map fun a => resolveFile file a.root a.scopes policy := by
  cases hpath : (distinctPaths additions)[file.index]? with
  | none =>
    refine (OrderedMap.find?_eq_none_iff _ _).mpr ?_
    rw [h.keys_resolveAll policy, h.mem_keys_iff]
    exact Nat.not_lt_of_le (List.getElem?_eq_none_iff.mp hpath)
  | some path =>
    obtain ⟨a, ha, hentry⟩ := h.getElem?_outcomes policy hpath
    rw [Option.bind_some, ha]
    exact OrderedMap.find?_of_getElem?_entries hentry

end Run

/-- If two sequences of calls have the same paths and the same last trees for all but one of them,
runs report the same of all but one file. -/
theorem find?_outcomes_congr (policy : Policy) {additions additions' : List Addition}
    {changed : FilePath} (hpaths : distinctPaths additions' = distinctPaths additions)
    (hlatest : ∀ path, path ≠ changed → latest? additions' path = latest? additions path)
    {file : FileId} (hfile : (distinctPaths additions)[file.index]? ≠ some changed) :
    ((ofAdditions additions').resolveAll policy).outcomes.find? file =
      ((ofAdditions additions).resolveAll policy).outcomes.find? file := by
  rw [(holds_ofAdditions additions').find?_outcomes, (holds_ofAdditions additions).find?_outcomes,
    hpaths]
  cases hpath : (distinctPaths additions)[file.index]? with
  | none => rfl
  | some path =>
    have hne : path ≠ changed := by
      rintro rfl
      exact hfile hpath
    rw [Option.bind_some, Option.bind_some, hlatest path hne]

/-- **Files are resolved on their own.** Whatever calls filled a workspace, a run has one outcome
for each path, in the order in which the paths first came: that of the trees of its last call alone.
The diagnostics are those of the files that were stopped, in the same order. Another tree for a
path, or one more call for it, changes the outcome of no other file. -/
theorem resolveAll_independent (additions : List Addition) (policy : Policy) :
    let paths := distinctPaths additions
    let report := (ofAdditions additions).resolveAll policy
    (∀ a file, Answers additions a file → paths[file.index]? = some a.filePath) ∧
    report.outcomes.size = paths.length ∧
    (∀ k path, paths[k]? = some path → ∃ a, latest? additions path = some a ∧
      report.outcomes.entries[k]? = some (⟨k⟩, resolveFile ⟨k⟩ a.root a.scopes policy)) ∧
    report.diagnostics.entries = report.outcomes.values.filterMap Report.failure? ∧
    (report.isClean = true ↔ ∀ outcome ∈ report.outcomes.values, ∃ r, outcome = .ok r) ∧
    (∀ file,
      ¬ ((report.resolution? file).isSome = true ∧ (report.error? file).isSome = true) ∧
      ((report.resolution? file).isSome = true ∨ (report.error? file).isSome = true ↔
        ∃ a, Answers additions a file)) ∧
    (∀ before a a' after, additions = before ++ a :: after → a'.filePath = a.filePath →
      ∀ file, paths[file.index]? ≠ some a.filePath →
        ((ofAdditions (before ++ a' :: after)).resolveAll policy).outcomes.find? file =
          report.outcomes.find? file) ∧
    ∀ before a after, additions = before ++ after → a.filePath ∈ distinctPaths before →
      ∀ file, paths[file.index]? ≠ some a.filePath →
        ((ofAdditions (before ++ a :: after)).resolveAll policy).outcomes.find? file =
          report.outcomes.find? file := by
  intro paths report
  have h : (ofAdditions additions).Holds additions := holds_ofAdditions additions
  refine ⟨fun a file => getElem?_distinctPaths_of_answers, ?_,
    fun k path => h.getElem?_outcomes policy, h.diagnostics_resolveAll policy,
    Report.isClean_iff (h.diagnostics_resolveAll policy), fun file => ?_, ?_, ?_⟩
  · rw [OrderedMap.size, ← List.length_map Prod.fst, ← OrderedMap.keys, h.keys_resolveAll policy,
      h.keys_eq, List.length_map, List.length_range]
  · obtain ⟨hexclusive, hpresent⟩ := report.resolution?_error?_iff file
    refine ⟨hexclusive, hpresent.trans ?_⟩
    rw [h.keys_resolveAll policy, h.mem_keys_iff]
    constructor
    · exact exists_answers
    · rintro ⟨a, ha⟩
      exact (List.getElem?_eq_some_iff.mp (getElem?_distinctPaths_of_answers ha)).1
  · rintro before a a' after rfl hsame file hfile
    refine find?_outcomes_congr policy (distinctPaths_congr hsame) (fun path hne => ?_) hfile
    rw [latest?_insert before after (hsame ▸ hne.symm), latest?_insert before after hne.symm]
  · rintro before a after rfl hknown file hfile
    exact find?_outcomes_congr policy (distinctPaths_again after hknown)
      (fun path hne => latest?_insert before after hne.symm) hfile

/-- A block that uses a name, in a file that declares `x` in it. -/
def useOf (path name : String) (text : Option String) : Addition where
  path := path
  text := text
  root := .compilationUnit [.block ⟨1, 0⟩ [.simpleName ⟨1, 2⟩ name]]
  scopes := .build [.enter .compilationUnit "unit", .enter .block "block", .declareVariable "x"]

/-- Two files, the first of which comes again under another spelling. -/
def addedAgain : List Addition :=
  [useOf "src/A.java" "y" none, useOf "src/B.java" "x" (some "{ x; }"),
    useOf "src//A.java" "x" none]

theorem independent_addedAgain :
    let report := (ofAdditions addedAgain).resolveAll .default
    let last := useOf "src//A.java" "x" none
    let other := useOf "src/A.java" "z" none
    (distinctPaths addedAgain)[0]? = some last.filePath ∧
      report.outcomes.size = 2 ∧
      report.outcomes.entries[0]? = some (⟨0⟩, resolveFile ⟨0⟩ last.root last.scopes .default) ∧
      ((ofAdditions (addedAgain ++ [other])).resolveAll .default).outcomes.find? ⟨1⟩ =
        report.outcomes.find? ⟨1⟩ ∧
      ((ofAdditions (other :: addedAgain.tail)).resolveAll .default).outcomes.find? ⟨1⟩ =
        report.outcomes.find? ⟨1⟩ := by
  intro report last other
  obtain ⟨hplace, hsize, houtcome, -, -, -, hchange, hagain⟩ :=
    resolveAll_independent addedAgain .default
  have hanswers : Answers addedAgain last ⟨0⟩ :=
    ⟨addedAgain.take 2, [], rfl, by decide +kernel⟩
  have hpaths : distinctPaths addedAgain =
      [.ofSpelling "src/A.java", .ofSpelling "src/B.java"] := by decide +kernel
  have hlatest : latest? addedAgain (.ofSpelling "src/A.java") = some last := by
    rw [latest?, addedAgain, List.filter_cons_of_pos (by decide +kernel),
      List.filter_cons_of_neg (by decide +kernel), List.filter_cons_of_pos (by decide +kernel)]
    rfl
  have hfirst := hplace last ⟨0⟩ hanswers
  rw [hpaths] at hsize houtcome hchange hagain
  obtain ⟨a, ha, hentry⟩ := houtcome 0 _ rfl
  obtain rfl : last = a := Option.some.inj (hlatest.symm.trans ha)
  refine ⟨hfirst, hsize, hentry, ?_, ?_⟩
  · exact hagain addedAgain other [] (List.append_nil _).symm (by decide +kernel) ⟨1⟩
      (by decide +kernel)
  · exact hchange [] _ other _ rfl (by decide +kernel) ⟨1⟩ (by decide +kernel)

end Workspace

end NameResolution
