import NameResolution.ResolveError
import NameResolution.Scope.Lookup

/-!
# Cursors

A cursor stands on a scope and counts the children it has handed out. `descend` hands out the next
child; when there is none left it fails and the cursor stays where it is
(`descend_of_getElem?_eq_some`, `descend_of_getElem?_eq_none`).

A walk stops where `descend` fails, so it has no use for the cursor after a failure. `advance` is
the same call for those who go on: it always says where the cursor stands afterwards
(`descend_eq_advance`).
-/

namespace NameResolution

/-- A scope and the number of its children that are already taken. -/
structure ScopeCursor where
  scope : ScopeId
  taken : Nat
deriving DecidableEq, Repr

namespace ScopeCursor

/-- A cursor on a scope with no child taken. -/
def onScope (scope : ScopeId) : ScopeCursor := ⟨scope, 0⟩

/-- A cursor on the root. -/
def root : ScopeCursor := onScope ScopeTree.root

/-- Takes the next child. Gives a cursor on the child and the cursor that has it taken. -/
def descend (tree : ScopeTree) (position : SourcePosition) (cursor : ScopeCursor) :
    Except ResolveError (ScopeCursor × ScopeCursor) :=
  let children := tree.children cursor.scope
  match children[cursor.taken]? with
  | some child => .ok (onScope child, { cursor with taken := cursor.taken + 1 })
  | none => .error (.scopeMismatch position (tree.name cursor.scope) children.length)

/-- The outcome of taking the next child, and the cursor afterwards, also where there is no child
left. -/
def advance (tree : ScopeTree) (position : SourcePosition) (cursor : ScopeCursor) :
    Except ResolveError ScopeCursor × ScopeCursor :=
  let children := tree.children cursor.scope
  match children[cursor.taken]? with
  | some child => (.ok (onScope child), { cursor with taken := cursor.taken + 1 })
  | none => (.error (.scopeMismatch position (tree.name cursor.scope) children.length), cursor)

theorem descend_eq_advance (tree : ScopeTree) (position : SourcePosition) (cursor : ScopeCursor) :
    cursor.descend tree position =
      (cursor.advance tree position).1.map (·, (cursor.advance tree position).2) := by
  cases h : (tree.children cursor.scope)[cursor.taken]? <;> simp [descend, advance, h, Except.map]

theorem descend_of_getElem?_eq_some {tree : ScopeTree} {cursor : ScopeCursor} {child : ScopeId}
    (position : SourcePosition) (h : (tree.children cursor.scope)[cursor.taken]? = some child) :
    cursor.descend tree position = .ok (onScope child, ⟨cursor.scope, cursor.taken + 1⟩) := by
  simp [descend, h]

theorem descend_of_getElem?_eq_none {tree : ScopeTree} {cursor : ScopeCursor}
    (position : SourcePosition) (h : (tree.children cursor.scope)[cursor.taken]? = none) :
    cursor.descend tree position =
      .error (.scopeMismatch position (tree.name cursor.scope)
        (tree.children cursor.scope).length) := by
  simp [descend, h]

end ScopeCursor

end NameResolution
