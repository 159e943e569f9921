import NameResolution.Proofs.DistinctPositions
import NameResolution.Proofs.IndependentFiles
import NameResolution.Proofs.RenderedLines

/-!
# The text that a diagnostic shows

A workspace takes the trees of a path and its text apart from each other. A call that comes with a
text sets both, and a call without one sets the trees only. So the trees of a file are those of the
last call for its path, and its text is the last that came with any call for it
(`Workspace.text?_ofAdditions`). A rendered diagnostic is about the first and shows the second
(`Workspace.render_lastSupplied`).
-/

namespace NameResolution

open Text (FilePath)

/-! ## The file of an error -/

/-- A visit fails with an error of its own file. -/
theorem Context.file_of_visit_eq_error {ctx : Context} {root : Node} {p : Place} {e : ResolveError}
    (h : ctx.visit root p = .error e) : e.position.file = ctx.file := by
  rw [visit, visitWithin] at h
  split at h
  · rename_i node scope hnode hscope
    rw [visitIn] at h
    split at h
    · obtain rfl := Except.error.inj h
      rfl
    · have hposition := ((ctx.faultsAt_denotes scope node).map _ e h).2
      rw [hposition]
      rfl
  · cases h

/-- A file is stopped at a position of its own. -/
theorem file_of_resolveFile_eq_error {file : FileId} {root : Node} {scopes : ScopeTree}
    {policy : Policy} {e : ResolveError} (h : resolveFile file root scopes policy = .error e) :
    e.position.file = file := by
  rw [resolveFile_eq_foldlM] at h
  obtain ⟨before, p, after, found, hvisits, -, hfails⟩ := exists_of_foldlM_eq_error h
  have hp : p ∈ root.visits := by
    rw [hvisits]
    exact List.mem_append_right _ List.mem_cons_self
  rw [Context.recordVisit, ← Context.visit] at hfails
  cases hvisit : (⟨file, scopes, policy⟩ : Context).visit root p with
  | error e' =>
    rw [hvisit] at hfails
    obtain rfl := Except.error.inj hfails
    exact Context.file_of_visit_eq_error hvisit
  | ok entry =>
    -- the tables refuse what the visit found, which is of this file
    rw [hvisit] at hfails
    obtain ⟨position, first, second, rfl, -, rfl⟩ := Resolution.add_eq_error hfails
    exact (Context.resolves_iff.mpr ⟨hp, hvisit⟩).file_eq

/-! ## The texts of a workspace -/

/-- The text that came last with a call for a path, whatever calls without a text came after it. -/
def lastSupplied? (additions : List Addition) (path : FilePath) : Option String :=
  ((additions.filter (·.filePath = path)).filterMap Addition.text).getLast?

theorem lastSupplied?_concat (additions : List Addition) (a : Addition) (path : FilePath) :
    lastSupplied? (additions ++ [a]) path =
      if a.filePath = path then a.text.or (lastSupplied? additions path)
      else lastSupplied? additions path := by
  unfold lastSupplied?
  rw [List.filter_append, List.filterMap_append, List.getLast?_append]
  by_cases hpath : a.filePath = path
  · cases htext : a.text <;> simp [hpath, htext]
  · simp [hpath]

theorem lastSupplied?_of_notMem {additions : List Addition} {path : FilePath}
    (h : path ∉ distinctPaths additions) : lastSupplied? additions path = none := by
  have hnone : additions.filter (·.filePath = path) = [] := by
    rw [List.filter_eq_nil_iff]
    intro a ha hpath
    exact h (mem_distinctPaths.mpr ⟨a, ha, of_decide_eq_true hpath⟩)
  unfold lastSupplied?
  rw [hnone]
  rfl

/-- If the last call for a path came with a text, that is the last text. -/
theorem lastSupplied?_of_latest? {additions : List Addition} {path : FilePath} {a : Addition}
    (h : latest? additions path = some a) (htext : a.text.isSome = true) :
    lastSupplied? additions path = a.text := by
  obtain ⟨text, htext⟩ := Option.isSome_iff_exists.mp htext
  obtain ⟨before, hbefore⟩ := List.getLast?_eq_some_iff.mp h
  unfold lastSupplied?
  rw [hbefore, List.filterMap_append, List.getLast?_append, htext]
  simp [htext]

namespace Workspace

variable {ws : Workspace} {additions : List Addition}

/-- A call sets the text of its own file, if it comes with one. -/
theorem text?_perform (ws : Workspace) (a : Addition) (file : FileId) :
    (ws.perform a).2.files.text? file =
      if file = (ws.perform a).1 then a.text.or (ws.files.text? file)
      else ws.files.text? file := by
  unfold perform
  cases a.text with
  | none =>
    rw [Option.none_or, ite_self]
    exact FileSet.text?_register ws.files a.path file
  | some text =>
    have hset := FileSet.text?_setText (ws.files.register a.path).2
      (ws.files.register a.path).1 file text
    rw [FileSet.text?_register] at hset
    exact hset

theorem getElem?_distinctPaths_append {before : List Addition} {k : Nat} {path : FilePath}
    (h : (distinctPaths before)[k]? = some path) (after : List Addition) :
    (distinctPaths (before ++ after))[k]? = some path := by
  obtain ⟨hlt, rfl⟩ := List.getElem?_eq_some_iff.mp h
  have hgrow := distinctPaths_prefix before after
  exact List.prefix_iff_getElem?.mp hgrow k hlt

/-- **The text of a file is the last that came with a call for its path.** -/
theorem text?_ofAdditions (additions : List Addition) (file : FileId) :
    (ofAdditions additions).files.text? file =
      (distinctPaths additions)[file.index]?.bind (lastSupplied? additions) := by
  induction additions using List.reverseRecOn with
  | nil => rfl
  | append_singleton additions a ih =>
    have hstep : ofAdditions (additions ++ [a]) = ((ofAdditions additions).perform a).2 :=
      List.foldl_append
    obtain ⟨-, hplace⟩ := (holds_ofAdditions additions).filePaths_perform a
    rw [hstep, text?_perform, ih]
    by_cases hfile : file = ((ofAdditions additions).perform a).1
    · -- the file of the call, which has a text from before only if its path is not new
      rw [if_pos hfile, hfile, hplace, Option.bind_some, lastSupplied?_concat, if_pos rfl]
      cases hold : (distinctPaths additions)[((ofAdditions additions).perform a).1.index]? with
      | none =>
        have hnew : a.filePath ∉ distinctPaths additions := fun hknown => by
          rw [distinctPaths_concat, if_pos hknown, hold] at hplace
          cases hplace
        rw [lastSupplied?_of_notMem hnew, Option.bind_none]
      | some path =>
        have hsame := (getElem?_distinctPaths_append hold [a]).symm.trans hplace
        obtain rfl := Option.some.inj hsame
        rw [Option.bind_some]
    · -- another file keeps its text, and the calls for its path are the same
      rw [if_neg hfile]
      cases hnew : (distinctPaths (additions ++ [a]))[file.index]? with
      | none =>
        cases hold : (distinctPaths additions)[file.index]? with
        | none => rfl
        | some path => cases hnew.symm.trans (getElem?_distinctPaths_append hold [a])
      | some path =>
        have hne : a.filePath ≠ path := by
          rintro rfl
          exact hfile (FileId.eq_of_getElem? (nodup_distinctPaths _) hnew hplace)
        rw [getElem?_distinctPaths_concat hnew hne, Option.bind_some, Option.bind_some,
          lastSupplied?_concat, if_neg hne]

/-! ## What a diagnostic shows -/

/-- A diagnostic of a run is the failure of the last trees of a path. -/
theorem exists_latest?_of_mem_diagnostics {policy : Policy} {d : Diagnostic}
    (h : d ∈ ((ofAdditions additions).resolveAll policy).diagnostics.entries) :
    ∃ path a, (distinctPaths additions)[d.file.index]? = some path ∧
      latest? additions path = some a ∧
      Report.failure? (resolveFile d.file a.root a.scopes policy) = some d := by
  have hholds := holds_ofAdditions additions
  rw [hholds.diagnostics_resolveAll policy] at h
  obtain ⟨outcome, houtcome, hfailure⟩ := List.mem_filterMap.mp h
  obtain ⟨⟨file, _⟩, hentry, rfl⟩ := List.mem_map.mp houtcome
  obtain ⟨i, hi⟩ := List.mem_iff_getElem?.mp hentry
  have hfind := OrderedMap.find?_of_getElem?_entries hi
  rw [hholds.find?_outcomes policy] at hfind
  obtain ⟨path, hpath, hlatest⟩ := Option.bind_eq_some_iff.mp hfind
  obtain ⟨a, ha, rfl⟩ := Option.map_eq_some_iff.mp hlatest
  have hfile : d.file = file := by
    cases hrun : resolveFile file a.root a.scopes policy with
    | ok r =>
      rw [hrun] at hfailure
      cases hfailure
    | error e =>
      rw [hrun] at hfailure
      obtain rfl := Option.some.inj hfailure
      exact file_of_resolveFile_eq_error hrun
  rw [hfile]
  exact ⟨path, a, hpath, ha, hfailure⟩

/-- The path of a file is shown as it was first spelled. -/
theorem exists_path?_of_distinctPaths {file : FileId} {path : FilePath}
    (h : (distinctPaths additions)[file.index]? = some path) :
    ∃ spelling, (ofAdditions additions).files.path? file = some spelling ∧
      .ofSpelling spelling = path := by
  rw [← (holds_ofAdditions additions).filePaths_eq, FileSet.filePaths, List.getElem?_map] at h
  exact Option.map_eq_some_iff.mp h

/-- **A diagnostic is about the last trees of a path and shows the last text that came with any.**
The two belong together if the last call for the path came with a text. If it did not, the line of
the text that came before is shown, so that what is shown is right only if there is no such line. -/
theorem render_lastSupplied (additions : List Addition) (policy : Policy) :
    let ws := ofAdditions additions
    ∀ d ∈ (ws.resolveAll policy).diagnostics.entries, ∃ spelling a,
      ws.files.path? d.file = some spelling ∧
      latest? additions (.ofSpelling spelling) = some a ∧
      Report.failure? (resolveFile d.file a.root a.scopes policy) = some d ∧
      let supplied := lastSupplied? additions (.ofSpelling spelling)
      let showing (text? : Option String) : String :=
        FileSet.withLine (d.render spelling) d.col (text?.bind (Text.shownLine? · d.line))
      ws.files.render d = showing supplied ∧
      (a.text.isSome = true → supplied = a.text) ∧
      (ws.files.render d = showing a.text ↔
        a.text.isSome = true ∨ supplied.bind (Text.shownLine? · d.line) = none) := by
  intro ws d hd
  obtain ⟨path, a, hpath, ha, hfailure⟩ := exists_latest?_of_mem_diagnostics hd
  obtain ⟨spelling, hspelling, rfl⟩ := exists_path?_of_distinctPaths hpath
  refine ⟨spelling, a, hspelling, ha, hfailure, ?_⟩
  intro supplied showing
  have hrender : ws.files.render d = showing supplied := by
    rw [FileSet.render_eq, text?_ofAdditions, hpath, Option.bind_some, FileSet.displayPath,
      hspelling, Option.getD_some]
  refine ⟨hrender, lastSupplied?_of_latest? ha, ?_⟩
  rw [hrender]
  show FileSet.withLine _ _ _ = FileSet.withLine _ _ _ ↔ _
  rw [FileSet.withLine_inj]
  cases htext : a.text with
  | none => simp
  | some text =>
    have hsupplied : supplied = a.text := lastSupplied?_of_latest? ha (by simp [htext])
    simp [hsupplied, htext]

/-- A file without scopes, which no run resolves. -/
def withoutScopes (path : String) (text : Option String) : Addition :=
  ⟨path, text, .compilationUnit [], .build []⟩

/-- The diagnostic of such a file. -/
def withoutScopesFailure (file : FileId) : Diagnostic :=
  (ResolveError.scopeMismatch ⟨file, .origin⟩ "<root>" 0).toDiagnostic

/-- Two files with texts, the first of which gets other trees without a text. -/
def replacedTrees : List Addition :=
  [withoutScopes "src/A.java" (some "class Old;\n"), withoutScopes "B.java" (some "class B;\n"),
    withoutScopes "src//A.java" none]

theorem lastSupplied_replacedTrees :
    let ws := ofAdditions replacedTrees
    let d := withoutScopesFailure ⟨1⟩
    d ∈ (ws.resolveAll .default).diagnostics.entries ∧
      ws.files.render d = d.render "B.java" ++ "\n  | class B;\n  | ^" := by
  intro ws d
  have hd : d ∈ (ws.resolveAll .default).diagnostics.entries := by decide +kernel
  obtain ⟨spelling, a, hspelling, -, -, hrender, -⟩ :=
    render_lastSupplied replacedTrees .default d hd
  obtain rfl : "B.java" = spelling := Option.some.inj (Eq.trans (by decide +kernel) hspelling)
  exact ⟨hd, hrender.trans (by decide +kernel)⟩

/-- The last call for the first path has no text, and the text of trees that are gone is shown. -/
theorem render_replacedTrees :
    let ws := ofAdditions replacedTrees
    let d := withoutScopesFailure ⟨0⟩
    (latest? replacedTrees (.ofSpelling "src/A.java")).map Addition.text = some none ∧
      d ∈ (ws.resolveAll .default).diagnostics.entries ∧
      ws.files.render d = d.render "src/A.java" ++ "\n  | class Old;\n  | ^" ∧
      ws.files.render d ≠ d.render "src/A.java" := by
  decide +kernel

end Workspace

end NameResolution
