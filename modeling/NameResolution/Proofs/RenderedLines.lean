import NameResolution.Proofs.LinePartition
import NameResolution.Proofs.RegisteredFiles

/-!
# Rendered lines

A diagnostic is rendered as its head, with the line that it is about and a caret below where the
text of its file has such a line (`FileSet.render_eq`). The caret stands behind a space for each
byte of the column. So it is below the character of the column if the characters before that take
one byte each, and behind it otherwise (`FileSet.render_caretColumn`).
-/

namespace NameResolution

namespace Text

/-- A line of a text as it is shown, without the carriage returns at its end. -/
def shownLine? (text : String) (line : Nat) : Option String :=
  (splitAt '\n' text.toList)[line]?.map fun piece => String.ofList (piece.rdropWhile (· = '\r'))

theorem shownLine?_isSome_iff (text : String) (line : Nat) :
    (shownLine? text line).isSome = true ↔ line < (LineIndex.ofText text).size := by
  simp [shownLine?, length_splitAt, LineIndex.size_ofText]

theorem length_le_byteLength (text : List Char) : text.length ≤ byteLength text := by
  induction text with
  | nil => exact Nat.le_refl 0
  | cons c text ih =>
    have hpos := c.utf8Size_pos
    rw [List.length_cons, byteLength_cons]
    omega

/-- A text has as many bytes as characters if all of these are of the first 128. -/
theorem byteLength_eq_length_iff (text : List Char) :
    byteLength text = text.length ↔ ∀ c ∈ text, c.val ≤ 127 := by
  induction text with
  | nil => exact iff_of_true rfl nofun
  | cons c text ih =>
    have hpos := c.utf8Size_pos
    have hle := length_le_byteLength text
    rw [List.forall_mem_cons, ← ih, ← Char.utf8Size_eq_one_iff, List.length_cons, byteLength_cons]
    omega

end Text

namespace FileSet

variable {files : FileSet} {d : Diagnostic} {text shown : String}

/-- A line below a head and a caret below that, or the head alone where there is no line. -/
def withLine (head : String) (col : Nat) : Option String → String
  | none => head
  | some line => head ++ "\n  | " ++ line ++ "\n  | " ++ caret col

/-- The line is shown below the head, and below it a caret behind so many characters. -/
def ShowsCaret (rendered head line : String) (padding : Nat) : Prop :=
  ∃ pad : String, pad.length = padding ∧
    rendered = head ++ "\n  | " ++ line ++ "\n  | " ++ (pad ++ "^")

theorem lineText?_eq_bind (files : FileSet) (file : FileId) (line : Nat) :
    files.lineText? file line = (files.text? file).bind (Text.shownLine? · line) :=
  lineText?_eq files file line

theorem render_eq (files : FileSet) (d : Diagnostic) :
    files.render d = withLine (d.render (files.displayPath d.file)) d.col
      ((files.text? d.file).bind (Text.shownLine? · d.line)) := by
  unfold render
  rw [lineText?_eq_bind]
  cases (files.text? d.file).bind (Text.shownLine? · d.line) <;> rfl

theorem withLine_some_ne (head line : String) (col : Nat) :
    withLine head col (some line) ≠ head := by
  intro h
  have hmargin : "\n  | ".length = 5 := rfl
  have hlength := congrArg String.length h
  simp only [withLine, String.length_append] at hlength
  omega

/-- What is shown below a head can be told from the whole. -/
theorem withLine_inj {head : String} {col : Nat} {line line' : Option String} :
    withLine head col line = withLine head col line' ↔ line = line' := by
  refine ⟨fun h => ?_, congrArg _⟩
  cases line with
  | none =>
    cases line' with
    | none => rfl
    | some line' => exact absurd h.symm (withLine_some_ne head line' col)
  | some line =>
    cases line' with
    | none => exact absurd h (withLine_some_ne head line col)
    | some line' => simpa [withLine] using h

theorem caret_eq (col : Nat) : caret col = String.ofList (List.replicate col ' ') ++ "^" := by
  unfold caret
  rw [String.ofList_append]

/-- The caret stands behind as many characters as the column has bytes. -/
theorem showsCaret_render_iff
    (hshown : (files.text? d.file).bind (Text.shownLine? · d.line) = some shown) (padding : Nat) :
    ShowsCaret (files.render d) (d.render (files.displayPath d.file)) shown padding ↔
      padding = d.col := by
  rw [render_eq, hshown, withLine, caret_eq]
  constructor
  · rintro ⟨pad, rfl, hrender⟩
    rw [String.append_right_inj, String.append_left_inj] at hrender
    rw [← hrender, String.length_ofList, List.length_replicate]
  · rintro rfl
    exact ⟨_, by simp, rfl⟩

/-- **The caret is where the column is if all characters before it take one byte.** Every line of a
text is shown. Below it the caret stands behind as many characters as there are bytes before the
column, which are at least as many as the characters there, and exactly as many if all of these are
of the first 128. -/
theorem render_caretColumn (files : FileSet) (d : Diagnostic)
    (htext : files.text? d.file = some text) :
    ((Text.shownLine? text d.line).isSome = true ↔
      d.line < (Text.LineIndex.ofText text).size) ∧
    ∀ before after : String, Text.shownLine? text d.line = some (before ++ after) →
      d.col = before.utf8ByteSize →
        let head := d.render (files.displayPath d.file)
        ShowsCaret (files.render d) head (before ++ after) before.utf8ByteSize ∧
        before.length ≤ before.utf8ByteSize ∧
        (ShowsCaret (files.render d) head (before ++ after) before.length ↔
          ∀ c ∈ before.toList, c.val ≤ 127) := by
  refine ⟨Text.shownLine?_isSome_iff text d.line, fun before after hline hcol => ?_⟩
  have hshown : (files.text? d.file).bind (Text.shownLine? · d.line) = some (before ++ after) := by
    rw [htext, Option.bind_some, hline]
  intro head
  have hcaret := showsCaret_render_iff hshown
  refine ⟨(hcaret _).mpr hcol.symm, ?_, (hcaret _).trans ?_⟩
  · rw [← Text.byteLength_toList, ← String.length_toList]
    exact Text.length_le_byteLength _
  · rw [hcol, ← Text.byteLength_toList, ← String.length_toList, ← Text.byteLength_eq_length_iff]
    exact eq_comm

/-- A file with a character of two bytes in its second line, which ends with a carriage return. -/
def twoByteFile : FileSet :=
  (empty.register "A.java").2.setText ⟨0⟩ "class A\n  int é = y;\r\n"

/-- Something about a column of the second line. -/
def inSecondLine (col : Nat) : Diagnostic := ⟨⟨0⟩, 1, col, .error, some "E0101", "boom"⟩

theorem caretColumn_secondLine :
    ShowsCaret (twoByteFile.render (inSecondLine 6)) "A.java:2:7: error[E0101]: boom"
        "  int é = y;" "  int ".length ∧
      ShowsCaret (twoByteFile.render (inSecondLine 11)) "A.java:2:12: error[E0101]: boom"
        "  int é = y;" "  int é = ".utf8ByteSize := by
  have hcaret (col : Nat) := (twoByteFile.render_caretColumn (inSecondLine col)
    (show _ = some "class A\n  int é = y;\r\n" from rfl)).2
  obtain ⟨-, -, hfirst⟩ := hcaret 6 "  int " "é = y;" (by decide +kernel) rfl
  obtain ⟨hbytes, -, -⟩ := hcaret 11 "  int é = " "y;" (by decide +kernel) (by decide +kernel)
  exact ⟨hfirst.mpr (by simp), hbytes⟩

/-- Behind a character of two bytes the caret is one place too far. -/
theorem caret_behindTwoBytes :
    let d := inSecondLine "  int é = ".utf8ByteSize
    twoByteFile.lineText? d.file d.line = some ("  int é = " ++ "y;") ∧
      ¬ ShowsCaret (twoByteFile.render d) (d.render (twoByteFile.displayPath d.file))
        ("  int é = " ++ "y;") "  int é = ".length := by
  intro d
  have hshown : (twoByteFile.text? d.file).bind (Text.shownLine? · d.line) =
      some ("  int é = " ++ "y;") := by decide +kernel
  refine ⟨(lineText?_eq_bind _ _ _).trans hshown, ?_⟩
  rw [showsCaret_render_iff hshown]
  decide +kernel

end FileSet

end NameResolution
