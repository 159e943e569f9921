import NameResolution.Collection.OrderedMap
import NameResolution.Diagnostic
import NameResolution.Text.FilePath
import NameResolution.Text.LineIndex

/-!
# File sets

The files of a run: numbers for paths, in the order in which the paths were first seen, and texts
for numbers. Diagnostics are rendered with the path of their file and, when its text is known, with
the offending line and a caret below it.
-/

namespace NameResolution

/-- Registered paths as they were first spelled, file `n` at place `n`, and the known texts. -/
structure FileSet where
  paths : List String
  texts : OrderedMap FileId String

namespace FileSet

/-- No paths and no texts. -/
def empty : FileSet := ⟨[], .empty⟩

instance : Inhabited FileSet := ⟨empty⟩

/-- The file registered under an equal path. -/
def find? (files : FileSet) (spelling : String) : Option FileId :=
  (files.paths.findIdx? fun known =>
    Text.FilePath.ofSpelling known = Text.FilePath.ofSpelling spelling).map FileId.mk

/-- The file of a path, registered now if the path is new. -/
def register (files : FileSet) (spelling : String) : FileId × FileSet :=
  match files.find? spelling with
  | some file => (file, files)
  | none => (⟨files.paths.length⟩, { files with paths := files.paths ++ [spelling] })

/-- The path under which a file was registered. -/
def path? (files : FileSet) (file : FileId) : Option String := files.paths[file.index]?

/-- The number of registered paths. -/
def size (files : FileSet) : Nat := files.paths.length

/-- There are no registered paths. -/
def isEmpty (files : FileSet) : Bool := files.paths.isEmpty

/-- The registered files in order. -/
def files (files : FileSet) : List FileId := (List.range files.size).map FileId.mk

/-- Sets the text of a file. -/
def setText (files : FileSet) (file : FileId) (text : String) : FileSet :=
  { files with texts := files.texts.insert file text }

/-- The text of a file, if it was set. -/
def text? (files : FileSet) (file : FileId) : Option String := files.texts.find? file

/-- A line of a file without its newline and the carriage returns before it. -/
def lineText? (files : FileSet) (file : FileId) (line : Nat) : Option String := do
  let text ← files.text? file
  let range ← (Text.LineIndex.ofText text).range? line
  return String.ofList (Text.trimEnd '\r' (range.slice text).toList)

/-- The path of a file, or its number when it has none. -/
def displayPath (files : FileSet) (file : FileId) : String :=
  (files.path? file).getD (toString file)

/-- A caret after `col` spaces. -/
def caret (col : Nat) : String := String.ofList (List.replicate col ' ' ++ ['^'])

/-- A diagnostic with its path and, where the text is known, its line and a caret. -/
def render (files : FileSet) (d : Diagnostic) : String :=
  let head := d.render (files.displayPath d.file)
  match files.lineText? d.file d.line with
  | none => head
  | some line => head ++ "\n  | " ++ line ++ "\n  | " ++ caret d.col

theorem register_snd_of_find?_eq_some {files : FileSet} {spelling : String} {file : FileId}
    (h : files.find? spelling = some file) : files.register spelling = (file, files) := by
  simp [register, h]

theorem text?_setText (files : FileSet) (file other : FileId) (text : String) :
    (files.setText file text).text? other = if other = file then some text else files.text? other :=
  OrderedMap.find?_insert files.texts file other text

end FileSet

end NameResolution
