import NameResolution.Proofs.AssignedScope
import NameResolution.Walk

/-!
# The steps of a walk

One equation for each thing a walk can do at a node: pass an empty field access, record a path,
walk a computed value, record a node without contours and go on to its children, or open contours
and walk the children inside. What opening contours gives is what `ScopeTree.openContours` says of
the scope and the number of children taken (`ScopeCursor.descendInto_eq`).
-/

namespace NameResolution

/-- Why contours cannot be opened: a scope lacks a child. -/
def ScopeTree.lacksChild (scopes : ScopeTree) (position : SourcePosition) (scope : ScopeId) :
    ResolveError :=
  .scopeMismatch position (scopes.name scope) (scopes.children scope).length

namespace ScopeCursor

/-- Taking contours from a cursor is opening them as the child after those taken. -/
theorem descendInto_eq (scopes : ScopeTree) (position : SourcePosition) (more : Nat)
    (cursor : ScopeCursor) :
    cursor.descendInto scopes position more =
      match scopes.openContours (more + 1) cursor.scope cursor.taken with
      | .error lacking => .error (scopes.lacksChild position lacking)
      | .ok inner => .ok (onScope inner, ⟨cursor.scope, cursor.taken + 1⟩) := by
  induction more generalizing cursor with
  | zero =>
    rw [descendInto, ScopeTree.openContours]
    cases hchild : (scopes.children cursor.scope)[cursor.taken]? with
    | none => exact descend_of_getElem?_eq_none position hchild
    | some child => exact descend_of_getElem?_eq_some position hchild
  | succ more ih =>
    rw [descendInto, ScopeTree.openContours]
    cases hchild : (scopes.children cursor.scope)[cursor.taken]? with
    | none =>
      rw [descend_of_getElem?_eq_none position hchild]
      rfl
    | some child =>
      rw [descend_of_getElem?_eq_some position hchild]
      simp only [bind, Except.bind, ih, onScope]
      cases scopes.openContours (more + 1) child 0 <;> rfl

end ScopeCursor

/-- Records an occurrence at its position, if there is one. -/
def Resolution.add (found : Resolution) :
    Option (SourcePosition × Occurrence) → Except ResolveError Resolution
  | none => .ok found
  | some (position, occurrence) => found.record position occurrence

namespace Context

variable (ctx : Context)

/-- What a node denotes in a scope, with the position of the node. -/
def denotesAt (scope : ScopeId) (node : Node) :
    Except ResolveError (Option (SourcePosition × Occurrence)) :=
  (ctx.denotes scope node).map fun occurrence => occurrence.map (ctx.position node, ·)

theorem recordNode_eq (node : Node) (cursor : ScopeCursor) (found : Resolution) :
    ctx.recordNode node ⟨cursor, found⟩ =
      WalkState.mk cursor <$> (ctx.denotesAt cursor.scope node >>= found.add) := by
  rw [recordNode, denotesAt]
  cases ctx.denotes cursor.scope node with
  | error e => rfl
  | ok occurrence =>
    cases occurrence with
    | none => rfl
    | some occurrence =>
      rw [Except.map, Option.map_some]
      show _ = WalkState.mk cursor <$> found.record (ctx.position node) occurrence
      rw [map_eq_pure_bind]
      rfl

variable {ctx}

/-- A node that opens contours denotes nothing itself. -/
theorem denotes_of_contourDepth {node : Node} {more : Nat} (h : node.kind.contourDepth = more + 1)
    (scope : ScopeId) : ctx.denotes scope node = .ok none := by
  obtain ⟨kind, start, children⟩ := node
  cases kind <;> first | rfl | cases h

/-- A field access on a computed value denotes nothing itself. -/
theorem denotes_of_leftmost? {node value : Node} (hvalue : node.leftmost? = some value)
    (hkind : value.kind.startsPath = false) (scope : ScopeId) :
    ctx.denotes scope node = .ok none := by
  obtain ⟨kind, start, children⟩ := node
  cases kind with
  | fieldAccess field =>
    show ctx.fieldAccess scope ⟨.fieldAccess field, start, children⟩ = .ok none
    rw [fieldAccess, hvalue, Option.map_some]
    cases hend : value.kind <;> first | rfl | (rw [hend] at hkind; cases hkind)
  | _ => cases hvalue

theorem walk_fieldAccess_nil {field : String} {start : LineCol} (state : WalkState) :
    ctx.walk ⟨.fieldAccess field, start, []⟩ state = .ok state := rfl

theorem walk_of_startsPath {field : String} {start : LineCol} {q : Node} {rest : List Node}
    (h : q.chainEnd.kind.startsPath = true) (state : WalkState) :
    ctx.walk ⟨.fieldAccess field, start, q :: rest⟩ state =
      ctx.recordNode ⟨.fieldAccess field, start, q :: rest⟩ state := by
  rw [walk, if_pos h]

theorem walk_computed {field : String} {start : LineCol} {q : Node} {rest : List Node}
    (h : q.chainEnd.kind.startsPath = false) (state : WalkState) :
    ctx.walk ⟨.fieldAccess field, start, q :: rest⟩ state = ctx.walk q state := by
  rw [walk, h, if_neg Bool.false_ne_true]

theorem walk_of_contourDepth_eq_zero {node : Node} (hkind : node.kind.isFieldAccess = false)
    (h : node.kind.contourDepth = 0) (state : WalkState) :
    ctx.walk node state = ctx.recordNode node state >>= ctx.walkAll node.children := by
  obtain ⟨kind, start, children⟩ := node
  cases kind <;> simp_all [walk, NodeKind.isFieldAccess]

/-- The children of a node that opens contours are walked inside; the cursor outside has one child
more taken. -/
theorem walk_of_contourDepth {node : Node} {more : Nat} (h : node.kind.contourDepth = more + 1)
    (outer : ScopeId) (taken : Nat) (found : Resolution) :
    ctx.walk node ⟨⟨outer, taken⟩, found⟩ =
      match ctx.scopes.openContours (more + 1) outer taken with
      | .error lacking => .error (ctx.scopes.lacksChild (ctx.position node) lacking)
      | .ok inner => do
        let inside ← ctx.walkAll node.children ⟨.onScope inner, found⟩
        return ⟨⟨outer, taken + 1⟩, inside.found⟩ := by
  have hwalk : ctx.walk node ⟨⟨outer, taken⟩, found⟩ =
      (⟨outer, taken⟩ : ScopeCursor).descendInto ctx.scopes (ctx.position node) more >>=
        fun cursors => ctx.walkAll node.children ⟨cursors.1, found⟩ >>=
          fun inside => pure ⟨cursors.2, inside.found⟩ := by
    obtain ⟨kind, start, children⟩ := node
    cases kind <;> simp_all [walk, NodeKind.contourDepth]
  rw [hwalk, ScopeCursor.descendInto_eq]
  cases ctx.scopes.openContours (more + 1) outer taken <;> rfl

theorem walkAll_cons (node : Node) (rest : List Node) (state : WalkState) :
    ctx.walkAll (node :: rest) state = ctx.walk node state >>= ctx.walkAll rest := rfl

end Context

end NameResolution
