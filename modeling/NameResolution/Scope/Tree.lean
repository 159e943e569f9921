import NameResolution.Name

/-!
# Scope trees

The lexical scopes of one file, built before the walk. Scopes are numbered in the order in which
they were entered; number 0 is the root, which holds the names visible everywhere. Every scope
knows its parent and its children in document order, and a parent comes before its children
(`ScopeTree.parent_lt`), so the chain from a scope to the root ends (`ancestors`).
-/

namespace NameResolution

/-- The number of a scope in its tree. -/
abbrev ScopeId := Nat

/-- What introduced a scope. -/
inductive ScopeKind where
  /-- Declarations of the base library. -/
  | root
  /-- Types and imports of one file. -/
  | compilationUnit
  /-- Members that a class inherits from its superclass. -/
  | inherited
  /-- Members that a type declares. -/
  | members
  /-- Parameters of a method or constructor. -/
  | callable
  /-- A block, loop or catch clause. -/
  | block
deriving DecidableEq, Repr

/-- The scope holds members of a type. -/
def ScopeKind.isTypeScope : ScopeKind → Bool
  | .inherited | .members => true
  | _ => false

/-- What a declaration declares. -/
inductive DeclKind where
  /-- A local variable or parameter. -/
  | localVariable
  | field
  | method
  | type
deriving DecidableEq, Repr

/-- The table that holds declarations of this kind. -/
def DeclKind.nameType : DeclKind → NameType
  | .localVariable | .field => .identifier
  | .method => .method
  | .type => .type

/-- A name declared in a scope, and the dotted output name that stands for it. -/
structure Declaration where
  name : String
  qualified : String
  kind : DeclKind
  isStatic : Bool
deriving DecidableEq, Repr

namespace Declaration

/-- The declaration is a member bound to an instance. -/
def needsInstance (d : Declaration) : Bool :=
  (d.kind == .field || d.kind == .method) && !d.isStatic

/-- The declaration is found under `name` in the table of `kind`. -/
def answers (kind : NameType) (name : String) (d : Declaration) : Bool :=
  d.kind.nameType == kind && d.name == name

end Declaration

/-- One scope of a tree. -/
structure Scope where
  name : String
  kind : ScopeKind
  parent : Option ScopeId
  children : List ScopeId
  /-- The qualified name of the type whose members the scope holds. -/
  owner : Option String
  declarations : List Declaration
deriving DecidableEq, Repr

namespace Scope

/-- The declaration of `name` in the table of `kind`. -/
def find? (scope : Scope) (kind : NameType) (name : String) : Option Declaration :=
  scope.declarations.find? (·.answers kind name)

/-- Adds a declaration in place of the one of the same name in the same table. -/
def declare (scope : Scope) (d : Declaration) : Scope :=
  { scope with
    declarations := d :: scope.declarations.filter fun e => !e.answers d.kind.nameType d.name }

/-- Adds a child after the present ones. -/
def addChild (scope : Scope) (child : ScopeId) : Scope :=
  { scope with children := scope.children ++ [child] }

@[simp] theorem parent_declare (scope : Scope) (d : Declaration) :
    (scope.declare d).parent = scope.parent := rfl

@[simp] theorem parent_addChild (scope : Scope) (child : ScopeId) :
    (scope.addChild child).parent = scope.parent := rfl

/-- A declaration answers for its own name and leaves the others as they were. -/
theorem find?_declare (scope : Scope) (d : Declaration) (kind : NameType) (name : String) :
    (scope.declare d).find? kind name =
      if d.answers kind name then some d else scope.find? kind name := by
  unfold find? declare
  by_cases h : d.answers kind name
  · simp [h]
  · rw [if_neg h]
    simp only [List.find?_cons, h]
    rw [List.find?_filter]
    congr 1
    funext e
    by_cases he : e.answers kind name
    · have hne : e.answers d.kind.nameType d.name = false := by
        simp only [Declaration.answers, Bool.and_eq_true, beq_iff_eq, Bool.and_eq_false_iff,
          beq_eq_false_iff_ne] at h he ⊢
        by_cases hk : e.kind.nameType = d.kind.nameType
        · exact .inr fun hn => h ⟨hk ▸ he.1, hn ▸ he.2⟩
        · exact .inl hk
      simp [he, hne]
    · simp [he]

end Scope

/-- The scopes of one file by number. -/
structure ScopeTree where
  scopes : Array Scope
  parent_lt : ∀ {id parent : ScopeId} {scope : Scope},
    scopes[id]? = some scope → scope.parent = some parent → parent < id

namespace ScopeTree

/-- The scope of a number; a number of another tree may have none. -/
def get? (tree : ScopeTree) (id : ScopeId) : Option Scope := tree.scopes[id]?

/-- The children of a scope in document order, none for an unknown number. -/
def children (tree : ScopeTree) (id : ScopeId) : List ScopeId :=
  match tree.get? id with
  | some scope => scope.children
  | none => []

/-- The name of a scope, empty for an unknown number. -/
def name (tree : ScopeTree) (id : ScopeId) : String :=
  match tree.get? id with
  | some scope => scope.name
  | none => ""

/-- The number of scopes, the root included. -/
def size (tree : ScopeTree) : Nat := tree.scopes.size

/-- There are no scopes. -/
def isEmpty (tree : ScopeTree) : Bool := tree.scopes.isEmpty

/-- The number of the root. -/
def root : ScopeId := 0

/-- A scope and its parents, up to the root. -/
def ancestors (tree : ScopeTree) (id : ScopeId) : List (ScopeId × Scope) :=
  match h : tree.scopes[id]? with
  | none => []
  | some scope =>
    (id, scope) ::
      match hp : scope.parent with
      | none => []
      | some parent =>
        have : parent < id := tree.parent_lt h hp
        tree.ancestors parent
termination_by id

/-- The qualified name of the innermost type around a scope. -/
def innermostType? (tree : ScopeTree) (id : ScopeId) : Option String :=
  (tree.ancestors id).findSome? (·.2.owner)

theorem get?_eq_none_iff {tree : ScopeTree} {id : ScopeId} :
    tree.get? id = none ↔ tree.size ≤ id := Array.getElem?_eq_none_iff

theorem ancestors_of_get?_eq_none {tree : ScopeTree} {id : ScopeId} (h : tree.get? id = none) :
    tree.ancestors id = [] := by
  unfold ancestors
  split
  · rfl
  · simp_all [get?]

theorem ancestors_of_parent_eq_none {tree : ScopeTree} {id : ScopeId} {scope : Scope}
    (h : tree.get? id = some scope) (hp : scope.parent = none) :
    tree.ancestors id = [(id, scope)] := by
  unfold ancestors
  split
  · simp_all [get?]
  · rename_i found hfound
    obtain rfl : found = scope := Option.some.inj (hfound.symm.trans h)
    split <;> simp_all

theorem ancestors_of_parent_eq_some {tree : ScopeTree} {id parent : ScopeId} {scope : Scope}
    (h : tree.get? id = some scope) (hp : scope.parent = some parent) :
    tree.ancestors id = (id, scope) :: tree.ancestors parent := by
  rw [ancestors]
  split
  · simp_all [get?]
  · rename_i found hfound
    obtain rfl : found = scope := Option.some.inj (hfound.symm.trans h)
    split
    · simp_all
    · rename_i outer houter
      obtain rfl : outer = parent := Option.some.inj (houter.symm.trans hp)
      rfl

/-- Induction from a scope to its parent. -/
theorem ancestors_induction (tree : ScopeTree) {motive : ScopeId → Prop}
    (unknown : ∀ id, tree.get? id = none → tree.ancestors id = [] → motive id)
    (top : ∀ id scope, tree.get? id = some scope → scope.parent = none →
      tree.ancestors id = [(id, scope)] → motive id)
    (inner : ∀ id scope parent, tree.get? id = some scope → scope.parent = some parent →
      tree.ancestors id = (id, scope) :: tree.ancestors parent → motive parent → motive id)
    (id : ScopeId) : motive id := by
  induction id using Nat.strongRecOn with
  | ind id ih =>
    cases hget : tree.get? id with
    | none => exact unknown id hget (ancestors_of_get?_eq_none hget)
    | some scope =>
      cases hp : scope.parent with
      | none => exact top id scope hget hp (ancestors_of_parent_eq_none hget hp)
      | some parent =>
        exact inner id scope parent hget hp (ancestors_of_parent_eq_some hget hp)
          (ih parent (tree.parent_lt hget hp))

end ScopeTree

end NameResolution
