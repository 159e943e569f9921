import NameResolution.Denotation
import NameResolution.Scope.Cursor
import NameResolution.Syntax.Contour

/-!
# The walk

Resolution walks the syntax tree in document order beside the scope tree. A node that opens
contours takes the next child of the current scope and its children are walked inside it; every
other node records what it denotes in the current scope, and its children share that scope. Of a
field access on a computed value only that value is walked.

The walk stops at the first error, and nothing found so far is kept.
-/

namespace NameResolution

namespace ScopeCursor

/-- Takes the next child, and inside it `more` times the first child. Gives a cursor on the
innermost scope and the cursor that has the child taken. -/
def descendInto (tree : ScopeTree) (position : SourcePosition) :
    Nat → ScopeCursor → Except ResolveError (ScopeCursor × ScopeCursor)
  | 0, cursor => cursor.descend tree position
  | more + 1, cursor => do
    let (inner, outer) ← cursor.descend tree position
    let (innermost, _) ← descendInto tree position more inner
    return (innermost, outer)

end ScopeCursor

/-- How far a walk has come: the cursor in the current scope and the names found so far. -/
structure WalkState where
  cursor : ScopeCursor
  found : Resolution

namespace Context

/-- Records what a node denotes in the current scope. -/
def recordNode (ctx : Context) (node : Node) (state : WalkState) :
    Except ResolveError WalkState := do
  match ← ctx.denotes state.cursor.scope node with
  | none => return state
  | some occurrence =>
    let found ← state.found.record (ctx.position node) occurrence
    return { state with found }

mutual

/-- Walks a node. -/
def walk (ctx : Context) : Node → WalkState → Except ResolveError WalkState
  | ⟨.fieldAccess _, _, []⟩, state => .ok state
  | ⟨.fieldAccess field, start, qualifier :: rest⟩, state =>
    if qualifier.chainEnd.kind.startsPath then
      ctx.recordNode ⟨.fieldAccess field, start, qualifier :: rest⟩ state
    else ctx.walk qualifier state
  | ⟨kind, start, children⟩, state =>
    match kind.contourDepth with
    | 0 => do ctx.walkAll children (← ctx.recordNode ⟨kind, start, children⟩ state)
    | more + 1 => do
      let position := ctx.position ⟨kind, start, children⟩
      let (inner, outer) ← state.cursor.descendInto ctx.scopes position more
      let inside ← ctx.walkAll children ⟨inner, state.found⟩
      return ⟨outer, inside.found⟩
termination_by structural node => node

/-- Walks nodes one after the other. -/
def walkAll (ctx : Context) : List Node → WalkState → Except ResolveError WalkState
  | [], state => .ok state
  | node :: rest, state => do ctx.walkAll rest (← ctx.walk node state)
termination_by structural nodes => nodes

end

end Context

/-- Resolves the names of one file. -/
def resolveFile (file : FileId) (root : Node) (scopes : ScopeTree) (policy : Policy) :
    Except ResolveError Resolution :=
  ((⟨file, scopes, policy⟩ : Context).walk root ⟨.root, .empty⟩).map WalkState.found

end NameResolution
