import NameResolution.Text.Split

/-!
# File paths

Two spellings name the same file when they have the same components. Slashes in a row and at the
end do not count, nor does a component `.`, except one that begins a relative path. `..` is a
component like any other, since what it means depends on the files.
-/

namespace NameResolution.Text

/-- What the comparison of paths looks at. -/
structure FilePath where
  isAbsolute : Bool
  components : List String
deriving DecidableEq, Repr

namespace FilePath

/-- Neither empty nor the current directory. -/
def counts (piece : List Char) : Bool := piece ≠ [] && piece ≠ ['.']

/-- The components of a spelling. -/
def ofSpelling (spelling : String) : FilePath :=
  let absolute := spelling.toList.head? = some '/'
  let pieces := splitAt '/' spelling.toList
  let kept := pieces.filter counts
  let leading := if !absolute && pieces.head? = some ['.'] then [['.']] else []
  ⟨absolute, (leading ++ kept).map String.ofList⟩

end FilePath

end NameResolution.Text
