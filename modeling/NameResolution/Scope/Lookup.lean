import NameResolution.Scope.Tree
import NameResolution.Text.Dotted

/-!
# Looking names up

A lookup goes from a scope outward and stops at the first scope that declares the name. A
non-static field or method found in a type scope other than the innermost type around the lookup
has the origin `Origin.enclosing`; everything else has the scope it was found in.

`this.member` is looked up among the innermost type's own members: the scopes of that type in one
run, from the nearest type scope outward.
-/

namespace NameResolution.ScopeTree

/-- Goes outward through `scopes`, where `innermost` is the owner of the nearest type scope passed
so far. -/
def searchOutward (kind : NameType) (name : String) (innermost : Option String) :
    List (ScopeId × Scope) → Option (QualifiedName kind)
  | [] => none
  | (_, scope) :: outer =>
    let innermost := innermost.or scope.owner
    match scope.find? kind name with
    | none => searchOutward kind name innermost outer
    | some d =>
      let throughInstance := scope.owner.isSome && scope.owner != innermost && d.needsInstance
      some ⟨d.qualified, if throughInstance then .enclosing else .scope scope.name⟩

/-- The nearest declaration of a name that is visible from a scope. -/
def lookup (tree : ScopeTree) (id : ScopeId) (kind : NameType) (name : String) :
    Option (QualifiedName kind) :=
  searchOutward kind name none (tree.ancestors id)

/-- A method visible from a scope. -/
def resolveMethod (tree : ScopeTree) (id : ScopeId) (name : String) :
    Option (QualifiedName .method) :=
  tree.lookup id .method name

/-- A type visible from a scope. -/
def resolveType (tree : ScopeTree) (id : ScopeId) (name : String) : Option (QualifiedName .type) :=
  tree.lookup id .type name

/-- The scopes of the innermost type around a scope: from the nearest type scope outward, as long
as the owner stays the same. -/
def ownScopes (tree : ScopeTree) (id : ScopeId) : List (ScopeId × Scope) :=
  match tree.innermostType? id with
  | none => []
  | some owner =>
    ((tree.ancestors id).dropWhile (·.2.owner.isNone)).takeWhile (·.2.owner == some owner)

/-- The field that `this.member` means in a scope; only the first segment of `member` counts. -/
def resolveOwnField (tree : ScopeTree) (id : ScopeId) (member : String) :
    Option (QualifiedName .identifier) :=
  (tree.ownScopes id).findSome? fun (_, scope) =>
    (scope.find? .identifier (Dotted.firstSegment member)).map fun d =>
      ⟨d.qualified, .scope scope.name⟩

/-- A variable, parameter or field visible from a scope. -/
def resolveIdentifier (tree : ScopeTree) (id : ScopeId) (name : String) :
    Option (QualifiedName .identifier) :=
  match Dotted.stripStart "this." name with
  | some member => tree.resolveOwnField id member
  | none => tree.lookup id .identifier name

end NameResolution.ScopeTree
