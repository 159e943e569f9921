import NameResolution.Position
import NameResolution.Text.Dotted

/-!
# Syntax trees

The typed tree that name resolution walks. Every node has a kind, the start of its text and its
children in document order.

* A field access has its qualifier as first child.
* A call with a receiver has the receiver as first child, its arguments after it.
* A type reference has its type arguments as children.

`text` gives back the dotted text of a name, a `this`, a chain of field accesses or a type
reference; `leftmost?` is the node at the bottom of a chain of field accesses.
-/

namespace NameResolution

/-- What a node is. -/
inductive NodeKind where
  | compilationUnit
  | classDecl (name : String) (isInterface hasSuperclass : Bool)
  | enumDecl (name : String)
  | methodDecl (name : String)
  | constructorDecl
  | block
  | catchClause
  | forLoop
  | forEach
  | objectCreation (anonymousBody : Bool)
  | methodCall (name : String) (hasReceiver : Bool)
  | fieldAccess (field : String)
  | name (ident : String)
  /-- The keyword `this`, or `Outer.this` with a qualifier. -/
  | this (qualifier : Option String)
  | typeRef (segments : List String)
  | primitive (name : String)
  /-- Anything without a part in name resolution. -/
  | other (label : String)
deriving DecidableEq, Repr

/-- A node of the tree. -/
structure Node where
  kind : NodeKind
  start : LineCol
  children : List Node

namespace Node

mutual

/-- Decides whether two trees are the same. -/
def decideEq : (a b : Node) → Decidable (a = b)
  | ⟨k₁, s₁, cs₁⟩, ⟨k₂, s₂, cs₂⟩ =>
    if hk : k₁ = k₂ then
      if hs : s₁ = s₂ then
        match decideEqAll cs₁ cs₂ with
        | .isTrue hc => .isTrue (by rw [hk, hs, hc])
        | .isFalse hc => .isFalse fun h => hc (Node.mk.inj h).2.2
      else .isFalse fun h => hs (Node.mk.inj h).2.1
    else .isFalse fun h => hk (Node.mk.inj h).1

/-- Decides whether two lists of trees are the same. -/
def decideEqAll : (as bs : List Node) → Decidable (as = bs)
  | [], [] => .isTrue rfl
  | [], _ :: _ => .isFalse nofun
  | _ :: _, [] => .isFalse nofun
  | a :: as, b :: bs =>
    match decideEq a b with
    | .isTrue h =>
      match decideEqAll as bs with
      | .isTrue hs => .isTrue (by rw [h, hs])
      | .isFalse hs => .isFalse fun e => hs (List.cons.inj e).2
    | .isFalse h => .isFalse fun e => h (List.cons.inj e).1

end

instance : DecidableEq Node := decideEq

/-- The dotted text of the node, where it has one. -/
def text : Node → Option String
  | ⟨.name ident, _, _⟩ => some ident
  | ⟨.this none, _, _⟩ => some "this"
  | ⟨.this (some outer), _, _⟩ => some (Dotted.member outer "this")
  | ⟨.fieldAccess field, _, q :: _⟩ => q.text.map (Dotted.member · field)
  | ⟨.typeRef segments, _, _⟩ => some (Dotted.join segments)
  | _ => none
termination_by structural node => node

/-- The qualifier of a field access. -/
def qualifier? (node : Node) : Option Node :=
  match node.kind with
  | .fieldAccess _ => node.children.head?
  | _ => none

/-- The end of a chain of field accesses, the node itself when it has no qualifier. -/
def chainEnd : Node → Node
  | ⟨.fieldAccess _, _, q :: _⟩ => q.chainEnd
  | node => node
termination_by structural node => node

/-- The leftmost qualifier of a field access. -/
def leftmost? (node : Node) : Option Node := node.qualifier?.map chainEnd

theorem chainEnd_of_qualifier?_eq_none {node : Node} (h : node.qualifier? = none) :
    node.chainEnd = node := by
  obtain ⟨kind, start, children⟩ := node
  cases kind <;> cases children <;> simp_all [qualifier?, chainEnd]

theorem chainEnd_of_qualifier?_eq_some {node q : Node} (h : node.qualifier? = some q) :
    node.chainEnd = q.chainEnd := by
  obtain ⟨kind, start, children⟩ := node
  cases kind <;> cases children <;> simp_all [qualifier?, chainEnd]

/-- A qualifier that is a field access with a qualifier of its own has the same leftmost one. -/
theorem leftmost?_eq_of_qualifier? {node q : Node} (h : node.qualifier? = some q) :
    node.leftmost? = some q.chainEnd := by
  simp [leftmost?, h]

end Node

end NameResolution
