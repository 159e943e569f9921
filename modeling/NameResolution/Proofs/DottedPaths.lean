import NameResolution.Proofs.DottedNames
import NameResolution.Proofs.Place
import NameResolution.Syntax.Build

/-!
# Dotted paths

`Node.path` builds the expression that a dotted text stands for, and `Node.text` gives the text
back (`Node.text_path`). Building goes segment by segment: whatever has been built has as its text
the segments so far, so a segment `this` can take that text as its qualifier and begin anew. What is
left is a chain of field accesses for the segments after the last `this` (`Node.path_of_this`), or
for all but the first where there is none (`Node.path_of_notMem`).
-/

namespace NameResolution.Node

variable {node : Node} {start : LineCol} {text dotted : String}
  {segments before after : List String}

/-- The fields of `base`, one after the other, all of them at `start`. -/
def fieldsOf (start : LineCol) (base : Node) (fields : List String) : Node :=
  fields.foldl (fieldOf start) base

/-- Every node of the tree starts at the same place. -/
def StartsAt (node : Node) (start : LineCol) : Prop :=
  ∀ p inner, node.at? p = some inner → inner.start = start

theorem startsAt_mk {kind : NodeKind} {children : List Node}
    (h : ∀ child ∈ children, child.StartsAt start) : StartsAt ⟨kind, start, children⟩ start := by
  intro p inner hinner
  cases p with
  | nil =>
    obtain rfl := Option.some.inj hinner
    rfl
  | cons i p =>
    obtain ⟨child, hchild, hbelow⟩ := Option.bind_eq_some_iff.mp hinner
    exact h child (List.mem_of_getElem? hchild) p inner hbelow

/-! ## One segment -/

theorem text_pathHead (start : LineCol) (segment : String) :
    (pathHead start segment).text = some segment := by
  unfold pathHead
  split
  · rename_i hthis
    rw [hthis]
    rfl
  · rfl

theorem startsAt_pathHead (start : LineCol) (segment : String) :
    (pathHead start segment).StartsAt start := by
  unfold pathHead
  split <;> exact startsAt_mk nofun

/-- A segment is a member of what stands before it, also where that becomes a qualifier. -/
theorem text_pathStep (h : node.text = some text) (segment : String) :
    (pathStep start node segment).text = some (Dotted.member text segment) := by
  unfold pathStep
  split
  · rename_i hthis
    rw [h, hthis]
    rfl
  · show node.text.map (Dotted.member · segment) = _
    rw [h, Option.map_some]

theorem startsAt_pathStep (h : node.StartsAt start) (segment : String) :
    (pathStep start node segment).StartsAt start := by
  unfold pathStep
  split
  · exact startsAt_mk nofun
  · apply startsAt_mk
    simpa using h

theorem pathStep_of_ne {segment : String} (h : segment ≠ "this") :
    pathStep start node segment = fieldOf start node segment :=
  if_neg h

/-! ## All segments -/

theorem text_foldl_pathStep (h : node.text = some text) (segments : List String) :
    (segments.foldl (pathStep start) node).text =
      some (segments.foldl Dotted.member text) := by
  induction segments generalizing node text with
  | nil => exact h
  | cons segment segments ih => exact ih (text_pathStep h segment)

theorem startsAt_foldl_pathStep (h : node.StartsAt start) (segments : List String) :
    (segments.foldl (pathStep start) node).StartsAt start := by
  induction segments generalizing node with
  | nil => exact h
  | cons segment segments ih => exact ih (startsAt_pathStep h segment)

theorem foldl_pathStep_of_notMem (h : "this" ∉ segments) :
    segments.foldl (pathStep start) node = fieldsOf start node segments := by
  induction segments generalizing node with
  | nil => rfl
  | cons segment segments ih =>
    obtain ⟨hsegment, hsegments⟩ := not_or.mp (mt List.mem_cons.mpr h)
    rw [List.foldl_cons, pathStep_of_ne (Ne.symm hsegment)]
    exact ih hsegments

theorem path_eq {first : String} {rest : List String}
    (h : Dotted.segments dotted = first :: rest) :
    path start dotted = rest.foldl (pathStep start) (pathHead start first) := by
  unfold path
  rw [h]

/-- **A path has the text that it was built from.** -/
theorem text_path (start : LineCol) (dotted : String) : (path start dotted).text = some dotted := by
  obtain ⟨first, rest, hsegments⟩ := List.exists_cons_of_ne_nil (Dotted.segments_ne_nil dotted)
  rw [path_eq hsegments, text_foldl_pathStep (text_pathHead start first),
    Dotted.foldl_member_eq_join, ← hsegments, Dotted.join_segments]

theorem startsAt_path (start : LineCol) (dotted : String) :
    (path start dotted).StartsAt start := by
  obtain ⟨first, rest, hsegments⟩ := List.exists_cons_of_ne_nil (Dotted.segments_ne_nil dotted)
  rw [path_eq hsegments]
  exact startsAt_foldl_pathStep (startsAt_pathHead start first) rest

theorem path_of_notMem (start : LineCol) (h : "this" ∉ Dotted.segments dotted) :
    path start dotted = fieldsOf start (simpleName start (Dotted.firstSegment dotted))
      (Dotted.segments dotted).tail := by
  obtain ⟨first, rest, hsegments⟩ := List.exists_cons_of_ne_nil (Dotted.segments_ne_nil dotted)
  rw [hsegments] at h
  obtain ⟨hfirst, hrest⟩ := not_or.mp (mt List.mem_cons.mpr h)
  have hhead : pathHead start first = simpleName start first := if_neg (Ne.symm hfirst)
  rw [path_eq hsegments, foldl_pathStep_of_notMem hrest, hhead, Dotted.firstSegment, hsegments]
  rfl

/-- The last `this` has all that stands before it as its qualifier. -/
theorem path_of_this (start : LineCol) (h : Dotted.segments dotted = before ++ "this" :: after)
    (hafter : "this" ∉ after) :
    path start dotted =
      fieldsOf start (thisRef start (if before = [] then none else some (Dotted.join before)))
        after := by
  cases before with
  | nil => rw [path_eq h, foldl_pathStep_of_notMem hafter, if_pos rfl, pathHead, if_pos rfl]
  | cons first rest =>
    have hbefore : (rest.foldl (pathStep start) (pathHead start first)).text =
        some (Dotted.join (first :: rest)) := by
      rw [text_foldl_pathStep (text_pathHead start first), Dotted.foldl_member_eq_join]
    rw [List.cons_append] at h
    rw [path_eq h, List.foldl_append, List.foldl_cons, foldl_pathStep_of_notMem hafter, pathStep,
      if_pos rfl, hbefore, if_neg (List.cons_ne_nil first rest)]
    rfl

/-- **A path is built from the segments of a text, and its text is that text.** All of it starts at
one place. Without a segment `this` it is the first segment as a name, with a field access for each
of the others. Otherwise it is the last `this`, plain when nothing stands before it and qualified by
all that does, with a field access for each segment after it. -/
theorem path_readsBack (start : LineCol) (dotted : String) :
    (path start dotted).text = some dotted ∧
    (∀ p node, (path start dotted).at? p = some node → node.start = start) ∧
    ("this" ∉ Dotted.segments dotted →
      path start dotted = fieldsOf start (simpleName start (Dotted.firstSegment dotted))
        (Dotted.segments dotted).tail) ∧
    ∀ before after, Dotted.segments dotted = before ++ "this" :: after → "this" ∉ after →
      path start dotted =
        fieldsOf start (thisRef start (if before = [] then none else some (Dotted.join before)))
          after := by
  refine ⟨text_path start dotted, startsAt_path start dotted, path_of_notMem start, ?_⟩
  intro before after hsegments hafter
  exact path_of_this start hsegments hafter

/-- A text with an empty segment between two `this`, and one that has no `this`. -/
theorem readsBack_twoThis :
    (path ⟨1, 4⟩ "a.this..this.é.f" =
        fieldOf ⟨1, 4⟩ (fieldOf ⟨1, 4⟩ (thisRef ⟨1, 4⟩ (some "a.this.")) "é") "f" ∧
      (thisRef ⟨1, 4⟩ (some "a.this.")).start = ⟨1, 4⟩) ∧
    path ⟨1, 4⟩ ".b" = fieldOf ⟨1, 4⟩ (simpleName ⟨1, 4⟩ "") "b" := by
  obtain ⟨-, hstart, -, hthis⟩ := path_readsBack ⟨1, 4⟩ "a.this..this.é.f"
  obtain ⟨-, -, hname, -⟩ := path_readsBack ⟨1, 4⟩ ".b"
  have hpath := hthis ["a", "this", ""] ["é", "f"] (by decide +kernel) (by decide +kernel)
  refine ⟨⟨hpath.trans (by decide +kernel), ?_⟩, (hname (by decide +kernel)).trans
    (by decide +kernel)⟩
  exact hstart [0, 0] _ (hpath ▸ by decide +kernel)

end NameResolution.Node
