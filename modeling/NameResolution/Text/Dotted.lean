import NameResolution.Text.Split

/-!
# Dotted names

A qualified name is a text whose segments stand between dots: `a.b.C` has the segments `a`, `b`
and `C`. Segments may be empty, so every text is a dotted name and `join_segments` holds for all
of them. `stripNamespace` takes a namespace off a name by whole segments.
-/

namespace NameResolution.Dotted

open Text

/-- The segments between the dots, at least one. -/
def segments (name : String) : List String := (splitAt '.' name.toList).map String.ofList

/-- The segments with dots between them. -/
def join (segs : List String) : String := String.ofList (joinWith '.' (segs.map String.toList))

/-- The member `field` of `qualifier`. -/
def member (qualifier field : String) : String := qualifier ++ "." ++ field

/-- The last segment. -/
def lastSegment (name : String) : String := (segments name).getLastD ""

/-- The first segment. -/
def firstSegment (name : String) : String := (segments name).headD ""

/-- What follows `start` in a text that begins with it. -/
def stripStart (start text : String) : Option String :=
  (start.toList.isPrefixOf? text.toList).map String.ofList

/-- What follows `namespace.` in a name inside the namespace; nothing when the name ends there. -/
def stripNamespace (ns name : String) : Option String :=
  match stripStart (ns ++ ".") name with
  | some "" => none
  | rest => rest

/-- The text without its final dots. -/
def trimDots (name : String) : String := String.ofList (trimEnd '.' name.toList)

/-! ## Segments -/

theorem segments_ne_nil (name : String) : segments name ≠ [] := by
  simp [segments, splitAt_ne_nil]

theorem join_segments (name : String) : join (segments name) = name := by
  have h : ((splitAt '.' name.toList).map String.ofList).map String.toList
      = splitAt '.' name.toList := by
    rw [List.map_map]
    conv => rhs; rw [← List.map_id (splitAt '.' name.toList)]
    exact List.map_congr_left fun p _ => by simp
  rw [join, segments, h, joinWith_splitAt, String.ofList_toList]

end NameResolution.Dotted
