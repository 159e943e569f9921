import NameResolution.Syntax.Node

/-!
# Contours

A node that opens a lexical contour stands for a scope of its own: everything below it belongs to
that scope. A class with a superclass opens two, the inherited members and inside them its own. An
enum opens none, its members belong to the scope around it.
-/

namespace NameResolution

/-- The number of scopes that a node opens, each inside the one before. -/
def NodeKind.contourDepth : NodeKind → Nat
  | .compilationUnit | .block | .catchClause | .methodDecl _ | .constructorDecl | .forLoop
  | .forEach => 1
  | .objectCreation anonymousBody => if anonymousBody then 1 else 0
  | .classDecl _ isInterface hasSuperclass => if hasSuperclass && !isInterface then 2 else 1
  | .enumDecl _ | .methodCall .. | .fieldAccess _ | .name _ | .this _ | .typeRef _ | .primitive _
  | .other _ => 0

/-- A name or a `this`, so that a chain of field accesses on it is a dotted path. -/
def NodeKind.startsPath : NodeKind → Bool
  | .name _ | .this _ => true
  | _ => false

end NameResolution
