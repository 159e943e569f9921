import NameResolution.Text.Bytes

/-!
# Line index

Where the lines of a text begin, in bytes. A line starts at the beginning of the text and after
every newline, so a text has one line more than it has newlines, and a final newline opens an empty
line. `range?` gives a line without its newline.
-/

namespace NameResolution.Text

/-- A stretch of bytes, `stop` excluded. -/
structure ByteRange where
  start : Nat
  stop : Nat
deriving DecidableEq, Repr

/-- The part of a text that a range covers. -/
def ByteRange.slice (r : ByteRange) (text : String) : String :=
  String.ofList (takeBytes (r.stop - r.start) (dropBytes r.start text.toList))

/-- The offsets at which lines start, and the length of the text. -/
structure LineIndex where
  starts : List Nat
  length : Nat
deriving DecidableEq, Repr

namespace LineIndex

/-- The offsets after the newlines of a text that begins at `offset`. -/
def startsAfter (offset : Nat) : List Char → List Nat
  | [] => []
  | c :: text =>
    if c = '\n' then (offset + 1) :: startsAfter (offset + 1) text
    else startsAfter (offset + c.utf8Size) text

/-- The index of a text. -/
def ofText (text : String) : LineIndex :=
  ⟨0 :: startsAfter 0 text.toList, byteLength text.toList⟩

/-- The number of lines. -/
def size (index : LineIndex) : Nat := index.starts.length

/-- There are no lines, which no text has. -/
def isEmpty (index : LineIndex) : Bool := index.starts.isEmpty

/-- The bytes of a line without its newline. -/
def range? (index : LineIndex) (line : Nat) : Option ByteRange :=
  index.starts[line]?.map fun start =>
    match index.starts[line + 1]? with
    | some next => ⟨start, next - 1⟩
    | none => ⟨start, index.length⟩

/-- The ranges of all lines. -/
def ranges (index : LineIndex) : List ByteRange := (List.range index.size).filterMap index.range?

/-- A start for every newline. -/
theorem length_startsAfter (offset : Nat) (text : List Char) :
    (startsAfter offset text).length = text.count '\n' := by
  induction text generalizing offset with
  | nil => rfl
  | cons c text ih =>
    unfold startsAfter
    by_cases h : c = '\n' <;> simp [h, ih]

/-- One line more than there are newlines. -/
theorem size_ofText (text : String) : (ofText text).size = text.toList.count '\n' + 1 := by
  simp [size, ofText, length_startsAfter]

theorem range?_isSome (index : LineIndex) (line : Nat) :
    (index.range? line).isSome ↔ line < index.size := by
  simp [range?, size]

end LineIndex

end NameResolution.Text
