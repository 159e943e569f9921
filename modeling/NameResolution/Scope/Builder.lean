import NameResolution.Scope.Tree
import NameResolution.Text.Dotted

/-!
# Building scope trees

A scope tree is built depth first, in the order of the syntax walk: a scope is entered as the last
child of the current one, declarations go to the current scope, and leaving a scope goes back to
its parent. The root is never left. `ScopeTree.build` runs a list of such steps.
-/

namespace NameResolution

namespace Scope

/-- A scope without children and declarations. -/
def fresh (name : String) (kind : ScopeKind) (parent : Option ScopeId) (owner : Option String) :
    Scope :=
  ⟨name, kind, parent, [], owner, []⟩

end Scope

namespace ScopeTree

/-- The tree of a root alone. -/
def rootOnly : ScopeTree where
  scopes := #[.fresh "<root>" .root none none]
  parent_lt := by
    intro id parent scope h hp
    match id with
    | 0 =>
      obtain rfl : Scope.fresh "<root>" .root none none = scope := by simpa using h
      exact absurd hp nofun
    | id + 1 => simp at h

/-- Changes a scope, but not its parent. -/
def modify (tree : ScopeTree) (id : ScopeId) (f : Scope → Scope)
    (hf : ∀ scope, (f scope).parent = scope.parent) : ScopeTree where
  scopes := tree.scopes.modify id f
  parent_lt := by
    intro i parent scope h hp
    rw [Array.getElem?_modify] at h
    split at h
    · obtain ⟨old, hold, rfl⟩ := Option.map_eq_some_iff.mp h
      exact tree.parent_lt hold (hf old ▸ hp)
    · exact tree.parent_lt h hp

/-- Adds a scope as the last child of `parent`. -/
def addScope (tree : ScopeTree) (parent : ScopeId) (h : parent < tree.size) (name : String)
    (kind : ScopeKind) (owner : Option String) : ScopeTree where
  scopes :=
    (tree.modify parent (·.addChild tree.size) fun s => s.parent_addChild tree.size).scopes.push
      (.fresh name kind (some parent) owner)
  parent_lt := by
    intro i p scope hi hp
    rw [Array.getElem?_push] at hi
    split at hi
    · rename_i hsize
      cases hi
      cases hp
      simpa [hsize, modify, size] using h
    · exact (tree.modify parent _ _).parent_lt hi hp

@[simp] theorem size_modify (tree : ScopeTree) (id : ScopeId) (f : Scope → Scope)
    (hf : ∀ scope, (f scope).parent = scope.parent) : (tree.modify id f hf).size = tree.size := by
  simp [modify, size]

@[simp] theorem size_addScope (tree : ScopeTree) (parent : ScopeId) (h : parent < tree.size)
    (name : String) (kind : ScopeKind) (owner : Option String) :
    (tree.addScope parent h name kind owner).size = tree.size + 1 := by
  simp [addScope, modify, size]

theorem get?_modify (tree : ScopeTree) (id : ScopeId) (f : Scope → Scope)
    (hf : ∀ scope, (f scope).parent = scope.parent) (i : ScopeId) :
    (tree.modify id f hf).get? i = if i = id then (tree.get? i).map f else tree.get? i := by
  show (tree.scopes.modify id f)[i]? = _
  rw [Array.getElem?_modify]
  by_cases h : i = id
  · subst h
    rw [if_pos rfl, if_pos rfl]
    rfl
  · rw [if_neg h, if_neg fun heq => h heq.symm]
    rfl

/-- The new scope has the next number; of the others only its parent changes. -/
theorem get?_addScope (tree : ScopeTree) (parent : ScopeId) (h : parent < tree.size)
    (name : String) (kind : ScopeKind) (owner : Option String) (i : ScopeId) :
    (tree.addScope parent h name kind owner).get? i =
      if i = tree.size then some (.fresh name kind (some parent) owner)
      else if i = parent then (tree.get? i).map (·.addChild tree.size) else tree.get? i := by
  rw [← get?_modify tree parent (·.addChild tree.size) fun s => s.parent_addChild tree.size]
  show (Array.push _ _)[i]? = _
  rw [Array.getElem?_push, show Array.size _ = tree.size from size_modify tree parent _ _]
  rfl

/-- A tree under construction and the scopes that are open in it, innermost first, the root left
out. -/
structure Builder where
  tree : ScopeTree
  opened : List ScopeId
  size_pos : 0 < tree.size
  opened_lt : ∀ id ∈ opened, id < tree.size

namespace Builder

/-- Nothing but the root. -/
def start : Builder := ⟨rootOnly, [], by decide, by simp⟩

/-- The innermost open scope. -/
def current (b : Builder) : ScopeId := b.opened.headD root

theorem current_lt (b : Builder) : b.current < b.tree.size := by
  unfold current
  cases h : b.opened with
  | nil => exact b.size_pos
  | cons id _ => exact b.opened_lt id (by simp [h])

/-- Opens a scope inside the current one. -/
def push (b : Builder) (name : String) (kind : ScopeKind) (owner : Option String) : Builder where
  tree := b.tree.addScope b.current b.current_lt name kind owner
  opened := b.tree.size :: b.opened
  size_pos := by simp
  opened_lt := by
    intro id hid
    rw [size_addScope]
    rcases List.mem_cons.mp hid with rfl | hid
    · exact Nat.lt_succ_self _
    · exact Nat.lt_succ_of_lt (b.opened_lt id hid)

/-- Closes the current scope; the root stays open. -/
def exit (b : Builder) : Builder :=
  { b with
    opened := b.opened.tail
    opened_lt := fun id hid => b.opened_lt id (List.mem_of_mem_tail hid) }

/-- Declares a name in the current scope. -/
def declare (b : Builder) (d : Declaration) : Builder where
  tree := b.tree.modify b.current (·.declare d) fun s => s.parent_declare d
  opened := b.opened
  size_pos := by rw [size_modify]; exact b.size_pos
  opened_lt := by rw [size_modify]; exact b.opened_lt

/-- The qualified name of a member of the current scope. -/
def memberName (b : Builder) (name : String) : String :=
  match (b.tree.get? b.current).bind Scope.owner with
  | some owner => Dotted.member owner name
  | none => name

end Builder

/-- One step of building a tree. -/
inductive BuildStep where
  /-- Open a scope that belongs to no type. -/
  | enter (kind : ScopeKind) (name : String)
  /-- Open the scope of the members that the type `owner` declares. -/
  | enterMembers (name owner : String)
  /-- Open the scope of the members that the type `owner` inherits. -/
  | enterInherited (name owner : String)
  /-- Close the current scope. -/
  | exit
  /-- Declare a name as it is given. -/
  | declare (d : Declaration)
  /-- Declare a local variable or parameter. -/
  | declareVariable (name : String)
  /-- Declare a field, qualified by the current type. -/
  | declareField (name : String) (isStatic : Bool)
  /-- Declare a method, qualified by the current type. -/
  | declareMethod (name : String) (isStatic : Bool)
  /-- Declare a type under its simple name. -/
  | declareType (name qualified : String)
  /-- Declare an imported type under the last segment of its name. -/
  | importType (qualified : String)
deriving DecidableEq, Repr

namespace Builder

/-- Takes one step. -/
def step (b : Builder) : BuildStep → Builder
  | .enter kind name => b.push name kind none
  | .enterMembers name owner => b.push name .members (some owner)
  | .enterInherited name owner => b.push name .inherited (some owner)
  | .exit => b.exit
  | .declare d => b.declare d
  | .declareVariable name => b.declare ⟨name, name, .localVariable, false⟩
  | .declareField name isStatic => b.declare ⟨name, b.memberName name, .field, isStatic⟩
  | .declareMethod name isStatic => b.declare ⟨name, b.memberName name, .method, isStatic⟩
  | .declareType name qualified => b.declare ⟨name, qualified, .type, true⟩
  | .importType qualified =>
    b.declare ⟨Dotted.lastSegment qualified, qualified, .type, true⟩

/-- Takes the steps of a list in order. -/
def run (b : Builder) (steps : List BuildStep) : Builder := steps.foldl step b

end Builder

/-- The tree that a list of steps builds. -/
def build (steps : List BuildStep) : ScopeTree := (Builder.start.run steps).tree

end ScopeTree

end NameResolution
