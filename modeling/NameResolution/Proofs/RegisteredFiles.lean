import Mathlib.Data.List.DropRight
import Mathlib.Data.List.Induction
import NameResolution.Collection.OrderedSet
import NameResolution.FileSet
import NameResolution.Proofs.LinePieces

/-!
# Files keep their numbers and texts

A file set is filled by two kinds of calls that do not get in each other's way: some ask for the
file of a path, others set the text of a file, registered or not. After any calls the registered
paths are those that were asked for, each where it first came (`FileSet.filePaths_ofCalls`) and as
it was first spelled (`FileSet.register_of_notMem`), and the text of a file is the last that was set
(`FileSet.text?_ofCalls`).
-/

namespace NameResolution

open Text (FilePath)

/-- A call of a file set. -/
inductive FileCall where
  /-- Ask for the file of a path. -/
  | register (spelling : String)
  /-- Set the text of a file. -/
  | setText (file : FileId) (text : String)
deriving DecidableEq, Repr

namespace FileCall

/-- The path whose file is asked for. -/
def path? : FileCall → Option FilePath
  | register spelling => some (.ofSpelling spelling)
  | setText .. => none

/-- The text that is set for a file. -/
def textOf? (file : FileId) : FileCall → Option String
  | register _ => none
  | setText other text => if other = file then some text else none

end FileCall

/-- A path stands at one place, so it has one file. -/
theorem FileId.eq_of_getElem? {paths : List FilePath} (hnodup : paths.Nodup) {file file' : FileId}
    {path : FilePath} (h : paths[file.index]? = some path) (h' : paths[file'.index]? = some path) :
    file = file' := by
  have hlt := (List.getElem?_eq_some_iff.mp h).1
  exact congrArg FileId.mk ((List.getElem?_inj hlt hnodup).mp (h.trans h'.symm))

namespace FileSet

/-! ## One call -/

section Register

variable {files : FileSet} {spelling : String}

/-- The paths as they are compared. -/
def filePaths (files : FileSet) : List FilePath := files.paths.map FilePath.ofSpelling

theorem find?_eq_none_iff : files.find? spelling = none ↔
    FilePath.ofSpelling spelling ∉ files.filePaths := by
  simp [find?, filePaths, List.findIdx?_eq_none_iff]

theorem getElem?_filePaths_of_find? {file : FileId} (h : files.find? spelling = some file) :
    files.filePaths[file.index]? = some (.ofSpelling spelling) := by
  obtain ⟨i, hi, rfl⟩ := Option.map_eq_some_iff.mp h
  obtain ⟨hlt, heq, -⟩ := List.findIdx?_eq_some_iff_getElem.mp hi
  rw [filePaths, List.getElem?_map, List.getElem?_eq_getElem hlt]
  simpa using heq

theorem register_of_find?_eq_none (h : files.find? spelling = none) : files.register spelling =
    (⟨files.paths.length⟩, { files with paths := files.paths ++ [spelling] }) := by
  rw [register, h]

/-- The answer to a call depends on the registered paths alone. -/
theorem register_fst (files : FileSet) (spelling : String) :
    (files.register spelling).1 = (files.find? spelling).getD ⟨files.paths.length⟩ := by
  unfold register
  split <;> simp [*]

/-- A new path gets the next number, a known one has its number already. -/
theorem register_spec (files : FileSet) (spelling : String) :
    (files.register spelling).2.filePaths =
      (if .ofSpelling spelling ∈ files.filePaths then files.filePaths
        else files.filePaths ++ [.ofSpelling spelling]) ∧
    (files.register spelling).2.filePaths[(files.register spelling).1.index]? =
      some (.ofSpelling spelling) := by
  cases hfind : files.find? spelling with
  | none =>
    rw [if_neg (find?_eq_none_iff.mp hfind), register_of_find?_eq_none hfind, filePaths,
      List.map_append, filePaths]
    refine ⟨rfl, ?_⟩
    simp
  | some file =>
    have hknown := getElem?_filePaths_of_find? hfind
    rw [register_snd_of_find?_eq_some hfind, if_pos (List.mem_of_getElem? hknown)]
    exact ⟨rfl, hknown⟩

theorem text?_register (files : FileSet) (spelling : String) (file : FileId) :
    (files.register spelling).2.text? file = files.text? file := by
  unfold register
  split <;> rfl

end Register

/-- Makes a call. -/
def perform (files : FileSet) : FileCall → FileSet
  | .register spelling => (files.register spelling).2
  | .setText file text => files.setText file text

/-- Spellings only come to the end. -/
theorem paths_prefix_perform (files : FileSet) (call : FileCall) :
    files.paths <+: (files.perform call).paths := by
  cases call with
  | register spelling =>
    show files.paths <+: (files.register spelling).2.paths
    unfold register
    split
    · exact List.prefix_refl _
    · exact List.prefix_append _ _
  | setText file text => exact List.prefix_refl _

/-! ## Any calls -/

/-- The file set after some calls. -/
def ofCalls (calls : List FileCall) : FileSet := calls.foldl perform .empty

/-- One of the calls asks for the file of a path, spelled in this way, and is answered `file`. -/
def Answers (calls : List FileCall) (spelling : String) (file : FileId) : Prop :=
  ∃ before after, calls = before ++ .register spelling :: after ∧
    ((ofCalls before).register spelling).1 = file

/-- The paths that are asked for, each where it first comes. -/
def askedPaths (calls : List FileCall) : List FilePath :=
  (calls.filterMap FileCall.path?).eraseDups

/-- The text that is set last for a file. -/
def lastText? (calls : List FileCall) (file : FileId) : Option String :=
  (calls.filterMap (FileCall.textOf? file)).getLast?

variable {calls : List FileCall} {spelling : String} {file : FileId}

theorem ofCalls_concat (calls : List FileCall) (call : FileCall) :
    ofCalls (calls ++ [call]) = (ofCalls calls).perform call :=
  List.foldl_append

/-! ### Paths -/

theorem askedPaths_eq_toList (calls : List FileCall) :
    askedPaths calls = (OrderedSet.ofList (calls.filterMap FileCall.path?)).toList :=
  (OrderedSet.toList_ofList _).symm

theorem nodup_askedPaths (calls : List FileCall) : (askedPaths calls).Nodup := by
  rw [askedPaths_eq_toList]
  exact OrderedSet.nodup _

theorem askedPaths_append (before after : List FileCall) : askedPaths (before ++ after) =
    ((OrderedSet.ofList (before.filterMap FileCall.path?)).insertAll
      (after.filterMap FileCall.path?)).toList := by
  rw [askedPaths_eq_toList, List.filterMap_append, OrderedSet.ofList, OrderedSet.insertAll_append]
  rfl

theorem askedPaths_prefix (before after : List FileCall) :
    askedPaths before <+: askedPaths (before ++ after) := by
  rw [askedPaths_append, askedPaths_eq_toList]
  exact OrderedSet.toList_prefix_insertAll _ _

/-- After any calls the registered paths are those that were asked for. -/
theorem filePaths_ofCalls (calls : List FileCall) :
    (ofCalls calls).filePaths = askedPaths calls := by
  induction calls using List.reverseRecOn with
  | nil => rfl
  | append_singleton calls call ih =>
    rw [ofCalls_concat, askedPaths_append]
    rw [askedPaths_eq_toList] at ih
    cases call with
    | register spelling =>
      refine ((ofCalls calls).register_spec spelling).1.trans ?_
      rw [ih]
      exact (OrderedSet.toList_insert _ _).symm
    | setText file text => exact ih

theorem size_ofCalls (calls : List FileCall) :
    (ofCalls calls).size = (askedPaths calls).length := by
  rw [← filePaths_ofCalls, filePaths, List.length_map]
  rfl

theorem paths_prefix_ofCalls (before after : List FileCall) :
    (ofCalls before).paths <+: (ofCalls (before ++ after)).paths := by
  induction after using List.reverseRecOn with
  | nil => simp
  | append_singleton after call ih =>
    rw [← List.append_assoc, ofCalls_concat]
    exact ih.trans (paths_prefix_perform _ call)

/-- A path that was not asked for before gets the next number, and stays spelled as it is now. -/
theorem register_of_notMem {before : List FileCall} (after : List FileCall)
    (h : FilePath.ofSpelling spelling ∉ askedPaths before) :
    ((ofCalls before).register spelling).1 = ⟨(askedPaths before).length⟩ ∧
      (ofCalls (before ++ .register spelling :: after)).path? ⟨(askedPaths before).length⟩ =
        some spelling := by
  rw [← filePaths_ofCalls] at h
  have hregister := register_of_find?_eq_none (find?_eq_none_iff.mpr h)
  have hpaths : (ofCalls (before ++ [.register spelling])).paths =
      (ofCalls before).paths ++ [spelling] := by
    rw [ofCalls_concat]
    exact congrArg (·.2.paths) hregister
  have hgrow := paths_prefix_ofCalls (before ++ [.register spelling]) after
  rw [hpaths, List.append_assoc before, List.singleton_append] at hgrow
  obtain ⟨later, hlater⟩ := hgrow
  rw [← size_ofCalls, size, hregister, path?, ← hlater]
  exact ⟨rfl, by simp⟩

/-- Whoever asks for a path is answered the place where it first came. -/
theorem Answers.getElem?_askedPaths (h : Answers calls spelling file) :
    (askedPaths calls)[file.index]? = some (.ofSpelling spelling) := by
  obtain ⟨before, after, rfl, rfl⟩ := h
  have hplace := ((ofCalls before).register_spec spelling).2
  have hpaths : ((ofCalls before).register spelling).2.filePaths =
      askedPaths (before ++ [.register spelling]) := by
    rw [← filePaths_ofCalls, ofCalls_concat]
    rfl
  obtain ⟨later, hlater⟩ := askedPaths_prefix (before ++ [.register spelling]) after
  rw [← hpaths, List.append_assoc, List.singleton_append] at hlater
  rw [← hlater, List.getElem?_append_left (List.getElem?_eq_some_iff.mp hplace).1, hplace]

/-- The same file means the same path. -/
theorem Answers.file_eq_iff {spelling' : String} {file' : FileId}
    (h : Answers calls spelling file) (h' : Answers calls spelling' file') :
    file = file' ↔ FilePath.ofSpelling spelling = .ofSpelling spelling' := by
  have hplace := h.getElem?_askedPaths
  have hplace' := h'.getElem?_askedPaths
  constructor
  · rintro rfl
    exact Option.some.inj (hplace.symm.trans hplace')
  · intro hpath
    rw [← hpath] at hplace'
    exact FileId.eq_of_getElem? (nodup_askedPaths calls) hplace hplace'

theorem mem_files_iff (files : FileSet) (file : FileId) :
    file ∈ files.files ↔ file.index < files.size := by
  rw [FileSet.files, List.mem_map]
  constructor
  · rintro ⟨k, hk, rfl⟩
    exact List.mem_range.mp hk
  · exact fun hlt => ⟨file.index, List.mem_range.mpr hlt, rfl⟩

/-- The files are those that were answered. -/
theorem mem_files_ofCalls_iff :
    file ∈ (ofCalls calls).files ↔ ∃ spelling, Answers calls spelling file := by
  rw [mem_files_iff, size_ofCalls]
  constructor
  · intro hlt
    have hasked : (askedPaths calls)[file.index] ∈ askedPaths calls := List.getElem_mem hlt
    obtain ⟨call, hcall, hpath⟩ := List.mem_filterMap.mp (List.mem_eraseDups.mp hasked)
    cases call with
    | setText other text => cases hpath
    | register spelling =>
      obtain ⟨before, after, rfl⟩ := List.append_of_mem hcall
      have hanswers : Answers (before ++ .register spelling :: after) spelling
          ((ofCalls before).register spelling).1 := ⟨before, after, rfl, rfl⟩
      have hfile := FileId.eq_of_getElem? (nodup_askedPaths _) hanswers.getElem?_askedPaths
        ((List.getElem?_eq_getElem hlt).trans hpath.symm)
      exact ⟨spelling, hfile ▸ hanswers⟩
  · rintro ⟨spelling, h⟩
    exact (List.getElem?_eq_some_iff.mp h.getElem?_askedPaths).1

/-! ### Texts -/

/-- After any calls the text of a file is the last that was set. -/
theorem text?_ofCalls (calls : List FileCall) (file : FileId) :
    (ofCalls calls).text? file = lastText? calls file := by
  induction calls using List.reverseRecOn with
  | nil => rfl
  | append_singleton calls call ih =>
    rw [lastText?] at ih
    rw [ofCalls_concat, lastText?, List.filterMap_append, List.getLast?_append, ← ih]
    cases call with
    | register spelling => exact text?_register _ spelling file
    | setText other text =>
      refine (text?_setText _ other file text).trans ?_
      by_cases h : other = file
      · simp [FileCall.textOf?, h]
      · simp [FileCall.textOf?, h, Ne.symm h]

/-- A line is the piece between newlines without the carriage returns at its end. -/
theorem lineText?_eq (files : FileSet) (file : FileId) (line : Nat) :
    files.lineText? file line = (files.text? file).bind fun text =>
      (Text.splitAt '\n' text.toList)[line]?.map fun piece =>
        String.ofList (piece.rdropWhile (· = '\r')) := by
  unfold lineText?
  cases files.text? file with
  | none => rfl
  | some text =>
    have hslice := Text.LineIndex.map_slice_range? text line
    simp only [Option.bind_eq_bind, Option.bind_some]
    cases hrange : (Text.LineIndex.ofText text).range? line with
    | none =>
      rw [Text.LineIndex.range?_eq_none_iff.mp hrange]
      rfl
    | some range =>
      rw [hrange, Option.map_some] at hslice
      obtain ⟨piece, hpiece, hshown⟩ := Option.map_eq_some_iff.mp hslice.symm
      rw [hpiece, Option.bind_some, ← hshown, String.toList_ofList]
      rfl

/-- **Files keep their numbers, paths and texts.** Paths are numbered from zero in the order in
which they first come, and each keeps its number and its first spelling; two calls are answered the
same file when their paths are the same. The text of a file is the last that was set for it, and no
other call changes it; its lines are the pieces between newlines. To set a text changes no number
and no path. -/
theorem ofCalls_consistent (calls : List FileCall) :
    let files := ofCalls calls
    (∀ before spelling after, calls = before ++ .register spelling :: after →
      FilePath.ofSpelling spelling ∉ askedPaths before →
        ((ofCalls before).register spelling).1 = ⟨(askedPaths before).length⟩ ∧
          files.path? ⟨(askedPaths before).length⟩ = some spelling) ∧
    (∀ spelling spelling' file file', Answers calls spelling file → Answers calls spelling' file' →
      (file = file' ↔ FilePath.ofSpelling spelling = .ofSpelling spelling')) ∧
    files.size = (askedPaths calls).length ∧
    files.files = (List.range (askedPaths calls).length).map FileId.mk ∧
    (∀ file, file ∈ files.files ↔ ∃ spelling, Answers calls spelling file) ∧
    (∀ file, files.path? file = none ↔ file ∉ files.files) ∧
    (∀ file, files.text? file = lastText? calls file) ∧
    (∀ file spelling, (files.register spelling).2.text? file = files.text? file) ∧
    (∀ file text,
      let changed := files.setText file text
      (∀ other, other ≠ file → changed.text? other = files.text? other) ∧
      (∀ spelling, (changed.register spelling).1 = (files.register spelling).1) ∧
      (∀ other, changed.path? other = files.path? other) ∧
      changed.files = files.files ∧ changed.size = files.size) ∧
    ∀ file line, files.lineText? file line = (lastText? calls file).bind fun text =>
      (Text.splitAt '\n' text.toList)[line]?.map fun piece =>
        String.ofList (piece.rdropWhile (· = '\r')) := by
  intro files
  refine ⟨?_, fun _ _ _ _ => Answers.file_eq_iff, size_ofCalls calls, ?_,
    fun _ => mem_files_ofCalls_iff, fun file => ?_, text?_ofCalls calls,
    fun file spelling => text?_register files spelling file, fun file text => ?_,
    fun file line => ?_⟩
  · rintro before spelling after rfl hnew
    exact register_of_notMem after hnew
  · rw [FileSet.files, size_ofCalls]
  · rw [mem_files_iff, Nat.not_lt, path?, List.getElem?_eq_none_iff]
    rfl
  · refine ⟨fun other hother => ?_, fun spelling => ?_, fun _ => rfl, rfl, rfl⟩
    · rw [text?_setText, if_neg hother]
    · rw [register_fst, register_fst]
      rfl
  · rw [lineText?_eq, text?_ofCalls]

/-- A text for a file that is registered later, and a path that comes again in another spelling. -/
def textsAndPaths : List FileCall :=
  [.setText ⟨1⟩ "early", .register "src/A.java", .setText ⟨0⟩ "package a;\r\nimport b;\n",
    .register "src//A.java/", .register "src/B.java"]

theorem consistent_textsAndPaths :
    let files := ofCalls textsAndPaths
    (FilePath.ofSpelling "src/B.java" ∉ askedPaths (textsAndPaths.take 4) ∧
      files.path? ⟨1⟩ = some "src/B.java") ∧
    (Answers textsAndPaths "src/A.java" ⟨0⟩ ∧ Answers textsAndPaths "src//A.java/" ⟨0⟩ ∧
      FilePath.ofSpelling "src/A.java" = .ofSpelling "src//A.java/") ∧
    (files.setText ⟨0⟩ "").text? ⟨1⟩ = some "early" ∧
    files.lineText? ⟨0⟩ 0 = some "package a;" := by
  obtain ⟨hfirst, hsame, -, -, -, -, htext, -, hset, hline⟩ := ofCalls_consistent textsAndPaths
  have hnew : FilePath.ofSpelling "src/B.java" ∉ askedPaths (textsAndPaths.take 4) := by
    decide +kernel
  have hcount : (askedPaths (textsAndPaths.take 4)).length = 1 := by decide +kernel
  have hplace := (hfirst (textsAndPaths.take 4) "src/B.java" [] rfl hnew).2
  rw [hcount] at hplace
  have hanswers : Answers textsAndPaths "src/A.java" ⟨0⟩ :=
    ⟨textsAndPaths.take 1, textsAndPaths.drop 2, rfl, by decide +kernel⟩
  have hanswers' : Answers textsAndPaths "src//A.java/" ⟨0⟩ :=
    ⟨textsAndPaths.take 3, textsAndPaths.drop 4, rfl, by decide +kernel⟩
  refine ⟨⟨hnew, hplace⟩, ⟨hanswers, hanswers', (hsame _ _ _ _ hanswers hanswers').mp rfl⟩, ?_, ?_⟩
  · exact ((hset ⟨0⟩ "").1 ⟨1⟩ (by decide)).trans ((htext ⟨1⟩).trans (by decide +kernel))
  · exact (hline ⟨0⟩ 0).trans (by decide +kernel)

end FileSet

end NameResolution
