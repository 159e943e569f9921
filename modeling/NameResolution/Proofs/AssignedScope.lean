import NameResolution.Proofs.ContourIndex
import NameResolution.Scope.Tree

/-!
# The scope of a place

Every place of a syntax tree has a scope, whatever a walk does on its way there: that of its
nearest contour, or the scope around the tree. The contours of a node take the child of the node's
own scope that has the number of the contour, and inside it first children
(`Node.scopeWithin?`).

`Node.scopeWithin?_cons` gives the scope of a place in the child that leads there, which is how a
walk comes to it.
-/

namespace NameResolution

/-- The innermost of `depth` contours inside each other, the first of them child `index` of a
scope; fails with the scope that lacks a child. -/
def ScopeTree.openContours (scopes : ScopeTree) : Nat → ScopeId → Nat → Except ScopeId ScopeId
  | 0, scope, _ => .ok scope
  | depth + 1, scope, index =>
    match (scopes.children scope)[index]? with
    | none => .error scope
    | some child => scopes.openContours depth child 0

theorem ScopeTree.openContours_succ_eq_ok_iff {scopes : ScopeTree} {depth index : Nat}
    {scope innermost : ScopeId} :
    scopes.openContours (depth + 1) scope index = .ok innermost ↔
      ∃ child, (scopes.children scope)[index]? = some child ∧
        scopes.openContours depth child 0 = .ok innermost := by
  rw [openContours]
  cases (scopes.children scope)[index]? <;> simp

theorem ScopeTree.openContours_succ_eq_error_iff {scopes : ScopeTree} {depth index : Nat}
    {scope lacking : ScopeId} :
    scopes.openContours (depth + 1) scope index = .error lacking ↔
      ((scopes.children scope)[index]? = none ∧ scope = lacking) ∨
        ∃ child, (scopes.children scope)[index]? = some child ∧
          scopes.openContours depth child 0 = .error lacking := by
  rw [openContours]
  cases (scopes.children scope)[index]? <;> simp

namespace Node

/-- The number that a contour has among the children of a scope of which `taken` are already taken
before the tree. -/
def contourNumber (node : Node) (taken : Nat) (p : Place) : Nat :=
  node.contourIndex p + if (node.contourAbove? p).isNone then taken else 0

/-- The scope of a place in a tree that stands in the scope `outer`, of which the contours before
the tree have taken `taken` children. -/
def scopeWithin? (scopes : ScopeTree) (node : Node) (outer : ScopeId) (taken : Nat) (p : Place) :
    Option ScopeId :=
  match _h : node.contourAbove? p with
  | none => some outer
  | some contour =>
    (scopeWithin? scopes node outer taken contour).bind fun scope =>
      (scopes.openContours (node.contourDepthAt contour) scope
        (node.contourNumber taken contour)).toOption
termination_by p.length
decreasing_by exact length_contourAbove?_lt _h

variable {scopes : ScopeTree} {node child : Node} {outer : ScopeId} {taken i : Nat} {p q : Place}

theorem scopeWithin?_of_none (h : node.contourAbove? p = none) :
    node.scopeWithin? scopes outer taken p = some outer := by
  rw [scopeWithin?]
  split
  · rfl
  · rename_i hc
    cases h.symm.trans hc

theorem scopeWithin?_of_some {contour : Place} (h : node.contourAbove? p = some contour) :
    node.scopeWithin? scopes outer taken p =
      (node.scopeWithin? scopes outer taken contour).bind fun scope =>
        (scopes.openContours (node.contourDepthAt contour) scope
          (node.contourNumber taken contour)).toOption := by
  rw [scopeWithin?]
  split
  · rename_i hc
    cases h.symm.trans hc
  · rename_i c hc
    obtain rfl : contour = c := Option.some.inj (h.symm.trans hc)
    rfl

theorem scopeWithin?_nil : node.scopeWithin? scopes outer taken [] = some outer :=
  scopeWithin?_of_none rfl

/-- Places with the same nearest contour have the same scope. -/
theorem scopeWithin?_congr (h : node.contourAbove? p = node.contourAbove? q) :
    node.scopeWithin? scopes outer taken p = node.scopeWithin? scopes outer taken q := by
  cases hq : node.contourAbove? q with
  | none => rw [scopeWithin?_of_none hq, scopeWithin?_of_none (h.trans hq)]
  | some contour => rw [scopeWithin?_of_some hq, scopeWithin?_of_some (h.trans hq)]

/-! ## From a node to its children -/

/-- The number of children that are taken of the scope around child `i` before it. -/
def takenBefore (node : Node) (taken i : Nat) : Nat :=
  (if node.opensAt [] then 0 else taken) + ((node.children.take i).map topContours).sum

theorem contourNumber_nil : node.contourNumber taken [] = taken := by
  simp [contourNumber, contourIndex_nil]

theorem contourNumber_cons (h : node.Enters i child) :
    node.contourNumber taken (i :: p) = child.contourNumber (node.takenBefore taken i) p := by
  rw [contourNumber, contourIndex_cons h, contourAbove?_cons h.getElem?, contourNumber,
    takenBefore]
  cases child.contourAbove? p <;> by_cases hopen : node.opensAt [] = true <;> simp [hopen] <;>
    omega

/-- The scope around the children of a node is the innermost one that the node opens. -/
theorem scopeWithin?_cons (h : node.Enters i child) :
    node.scopeWithin? scopes outer taken (i :: p) =
      (scopes.openContours node.kind.contourDepth outer taken).toOption.bind fun inner =>
        child.scopeWithin? scopes inner (node.takenBefore taken i) p := by
  -- the scope of a place is that of a shorter one, its nearest contour
  induction hn : p.length using Nat.strongRecOn generalizing p with
  | ind n ih =>
    subst hn
    have hat := h.getElem?
    cases hc : child.contourAbove? p with
    | none =>
      have habove := contourAbove?_cons_of_none hat hc
      simp only [scopeWithin?_of_none hc]
      by_cases hopen : node.opensAt [] = true
      · rw [if_pos hopen] at habove
        rw [scopeWithin?_of_some habove, scopeWithin?_nil, Option.bind_some, contourDepthAt_nil,
          contourNumber_nil, Option.bind_fun_some]
      · rw [if_neg hopen] at habove
        have hdepth : node.kind.contourDepth = 0 := by
          simpa [opensAt_nil] using hopen
        rw [scopeWithin?_of_none habove, hdepth]
        rfl
    | some contour =>
      rw [scopeWithin?_of_some (contourAbove?_cons_of_some hat hc),
        ih _ (length_contourAbove?_lt hc) rfl, Option.bind_assoc]
      congr 1
      funext inner
      rw [scopeWithin?_of_some hc, contourDepthAt_cons hat, contourNumber_cons h]

end Node

end NameResolution
