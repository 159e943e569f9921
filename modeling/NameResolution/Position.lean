/-!
# Positions

Occurrences in source text are labelled by a file, a line and a column. Lines and columns count
from zero, columns in UTF-8 bytes; what people read counts from one (`LineCol.ofOneIndexed`).
Positions are ordered by file, then line, then column (`SourcePosition.le`).
-/

namespace NameResolution

/-- Identifies a file of a run by its place in the order of registration. -/
structure FileId where
  index : Nat
deriving DecidableEq, Repr, Inhabited, Ord

namespace FileId

/-- Shown where a file has no known path. -/
instance : ToString FileId := ⟨fun f => "file#" ++ toString f.index⟩

/-- The form used in traces. -/
def inspect (f : FileId) : String := "FileId(" ++ toString f.index ++ ")"

end FileId

/-- A place in a file, line and column counting from zero. -/
structure LineCol where
  line : Nat
  col : Nat
deriving DecidableEq, Repr, Inhabited, Ord

namespace LineCol

/-- The start of a file. -/
def origin : LineCol := ⟨0, 0⟩

/-- The place that people call `line:col`; there is nothing before the first line or column. -/
def ofOneIndexed (line col : Nat) : LineCol := ⟨line - 1, col - 1⟩

instance : ToString LineCol := ⟨fun p => toString (p.line + 1) ++ ":" ++ toString (p.col + 1)⟩

/-- The form used in traces, the same as the shown one. -/
def inspect (p : LineCol) : String := toString p

end LineCol

/-- A place in a given file, the key under which an occurrence is recorded. -/
structure SourcePosition where
  file : FileId
  start : LineCol
deriving DecidableEq, Repr, Inhabited, Ord

namespace SourcePosition

/-- The line, counting from zero. -/
def line (p : SourcePosition) : Nat := p.start.line

/-- The column in bytes, counting from zero. -/
def col (p : SourcePosition) : Nat := p.start.col

instance : ToString SourcePosition := ⟨fun p => toString p.file ++ ":" ++ toString p.start⟩

/-- The form used in traces. -/
def inspect (p : SourcePosition) : String := p.file.inspect ++ "@" ++ toString p.start

/-- File first, then line, then column. -/
def le (p q : SourcePosition) : Bool := (compare p q).isLE

/-- The positions of a list in ascending order, each once. -/
def sortDistinct (ps : List SourcePosition) : List SourcePosition := (ps.mergeSort le).eraseReps

end SourcePosition

end NameResolution
