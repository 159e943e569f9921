import Mathlib.Data.List.Induction
import NameResolution.Proofs.ContourIndex

/-!
# Nothing is left out

In a tree that keeps the conventions on children, a walk visits every node except those on the
chain of a field access that is visited: the fields passed over and the name or `this` at the end
of a path (`Node.visited_or_onChain`). Those have the scope of that field access.
-/

namespace NameResolution.Node

/-- Names and `this` have no children, field accesses exactly one. -/
structure FollowsConventions (root : Node) : Prop where
  children_of_startsPath {p : Place} {node : Node} (hnode : root.at? p = some node)
    (hkind : node.kind.startsPath = true) : node.children = []
  children_of_isFieldAccess {p : Place} {node : Node} (hnode : root.at? p = some node)
    (hkind : node.kind.isFieldAccess = true) : ∃ q, node.children = [q]

/-- A tree keeps the conventions when its root does and the trees of its children do. -/
theorem followsConventions_mk {kind : NodeKind} {start : LineCol} {children : List Node} :
    FollowsConventions ⟨kind, start, children⟩ ↔
      (kind.startsPath = true → children = []) ∧
        (kind.isFieldAccess = true → ∃ q, children = [q]) ∧
          ∀ child ∈ children, child.FollowsConventions := by
  constructor
  · intro h
    refine ⟨fun hkind => h.children_of_startsPath (at?_nil _) hkind,
      fun hkind => h.children_of_isFieldAccess (at?_nil _) hkind, fun child hchild => ?_⟩
    obtain ⟨i, hi⟩ := List.getElem?_of_mem hchild
    have hbelow (p : Place) : at? ⟨kind, start, children⟩ (i :: p) = child.at? p :=
      at?_cons_of_getElem? hi p
    exact ⟨fun hnode => h.children_of_startsPath ((hbelow _).trans hnode),
      fun hnode => h.children_of_isFieldAccess ((hbelow _).trans hnode)⟩
  · rintro ⟨hstart, haccess, hchildren⟩
    constructor
    · intro p node hnode hkind
      cases p with
      | nil =>
        obtain rfl := Option.some.inj hnode
        exact hstart hkind
      | cons i p =>
        rw [at?_cons] at hnode
        obtain ⟨child, hchild, hnode⟩ := Option.bind_eq_some_iff.mp hnode
        exact (hchildren child (List.mem_of_getElem? hchild)).children_of_startsPath hnode hkind
    · intro p node hnode hkind
      cases p with
      | nil =>
        obtain rfl := Option.some.inj hnode
        exact haccess hkind
      | cons i p =>
        rw [at?_cons] at hnode
        obtain ⟨child, hchild, hnode⟩ := Option.bind_eq_some_iff.mp hnode
        exact (hchildren child (List.mem_of_getElem? hchild)).children_of_isFieldAccess hnode hkind

/-- The place of the qualifier of a field access. -/
def IsQualifier (root : Node) (p : Place) : Prop :=
  ∃ q access, p = q ++ [0] ∧ root.at? q = some access ∧ access.kind.isFieldAccess = true

/-- The node `node` at `p` stands `depth + 1` qualifiers below the visited field access `access`,
and is not a computed value. -/
structure OnChain (root : Node) (p : Place) (node : Node) (top : Place) (access : Node)
    (depth : Nat) : Prop where
  visited : root.Visited top
  at?_top : root.at? top = some access
  chainEnd_eq : access.chainEnd = node.chainEnd
  leftmost?_eq : access.leftmost? = some access.chainEnd
  eq_append : p = top ++ List.replicate (depth + 1) 0
  chainLength_eq : access.chainLength = node.chainLength + (depth + 1)
  contourAbove?_eq : root.contourAbove? p = root.contourAbove? top
  kind : node.kind.isFieldAccess = true ∨ node.kind.startsPath = true
  isQualifier : root.IsQualifier p

theorem above_concat (p : Place) (i : Nat) : Place.above (p ++ [i]) = p :: Place.above p := by
  induction p with
  | nil => rfl
  | cons j p ih => rw [List.cons_append, Place.above, ih, Place.above, List.map_cons,
      List.cons_append]

variable {root node : Node} {p : Place}

theorem opensAt_of_isFieldAccess (hnode : root.at? p = some node)
    (hkind : node.kind.isFieldAccess = true) : root.opensAt p = false := by
  rw [opensAt, contourDepthAt, hnode]
  simp [contourDepth_eq_zero_of_isFieldAccess hkind]

theorem contourAbove?_concat (hopen : root.opensAt p = false) (i : Nat) :
    root.contourAbove? (p ++ [i]) = root.contourAbove? p := by
  rw [contourAbove?, above_concat, List.find?_cons_of_neg (by simp [hopen]), contourAbove?]

theorem at?_concat_eq_some {i : Nat} (h : root.at? (p ++ [i]) = some node) :
    ∃ parent, root.at? p = some parent ∧ parent.children[i]? = some node := by
  rw [at?_append] at h
  obtain ⟨parent, hparent, hnode⟩ := Option.bind_eq_some_iff.mp h
  rw [at?_cons] at hnode
  obtain ⟨child, hchild, hchild'⟩ := Option.bind_eq_some_iff.mp hnode
  obtain rfl := Option.some.inj hchild'
  exact ⟨parent, hparent, hchild⟩

/-- The qualifier of a field access, in a tree that keeps the conventions. -/
theorem FollowsConventions.qualifier? (h : root.FollowsConventions) {parent : Node} {i : Nat}
    (hparent : root.at? p = some parent) (hkind : parent.kind.isFieldAccess = true)
    (hnode : parent.children[i]? = some node) : i = 0 ∧ parent.qualifier? = some node := by
  obtain ⟨q, hq⟩ := h.children_of_isFieldAccess hparent hkind
  obtain ⟨kind, start, children⟩ := parent
  obtain rfl : children = [q] := hq
  obtain ⟨hi, rfl⟩ := List.getElem?_eq_some_iff.mp hnode
  obtain rfl : i = 0 := by simpa using hi
  cases kind with
  | fieldAccess field => exact ⟨rfl, rfl⟩
  | _ => cases hkind

/-- The qualifier of a visited field access is on its chain, or it is a computed value and visited
itself. -/
theorem Visited.qualifier {parent : Node} (hp : root.Visited p)
    (hparent : root.at? p = some parent) (hkind : parent.kind.isFieldAccess = true)
    (hq : parent.qualifier? = some node) :
    root.Visited (p ++ [0]) ∨ root.OnChain (p ++ [0]) node p parent 0 := by
  have hend := chainEnd_of_qualifier?_eq_some hq
  have hleft : parent.leftmost? = some parent.chainEnd := by
    rw [leftmost?_eq_of_qualifier? hq, hend]
  have hlength := chainLength_of_qualifier?_eq_some hq
  by_cases hnode : node.kind.isFieldAccess = true ∨ node.kind.startsPath = true
  · exact .inr ⟨hp, hparent, hend, hleft, rfl, hlength,
      contourAbove?_concat (opensAt_of_isFieldAccess hparent hkind) 0, hnode,
      ⟨p, parent, rfl, hparent, hkind⟩⟩
  · simp only [not_or, Bool.not_eq_true] at hnode
    have hnone := qualifier?_eq_none_of_isFieldAccess_eq_false hnode.1
    rw [hend, chainEnd_of_qualifier?_eq_none hnone] at hleft
    rw [chainLength_of_qualifier?_eq_none hnone] at hlength
    have hv := hp.computed hparent hleft hnode.2
    rw [hlength] at hv
    exact .inl hv

/-- A chain goes on to the next qualifier, or ends at a computed value, which is visited. -/
theorem OnChain.qualifier {parent access : Node} {top : Place} {depth : Nat}
    (h : root.OnChain p parent top access depth) (hparent : root.at? p = some parent)
    (hkind : parent.kind.isFieldAccess = true) (hq : parent.qualifier? = some node) :
    root.Visited (p ++ [0]) ∨ root.OnChain (p ++ [0]) node top access (depth + 1) := by
  have hend := h.chainEnd_eq.trans (chainEnd_of_qualifier?_eq_some hq)
  have hlength : access.chainLength = node.chainLength + (depth + 1 + 1) := by
    rw [h.chainLength_eq, chainLength_of_qualifier?_eq_some hq]
    omega
  have hplace : p ++ [0] = top ++ List.replicate (depth + 1 + 1) 0 := by
    rw [h.eq_append, List.replicate_succ' (n := depth + 1), List.append_assoc]
  by_cases hnode : node.kind.isFieldAccess = true ∨ node.kind.startsPath = true
  · have habove := contourAbove?_concat (opensAt_of_isFieldAccess hparent hkind) 0
    exact .inr ⟨h.visited, h.at?_top, hend, h.leftmost?_eq, hplace, hlength,
      habove.trans h.contourAbove?_eq, hnode, ⟨p, parent, rfl, hparent, hkind⟩⟩
  · simp only [not_or, Bool.not_eq_true] at hnode
    have hnone := qualifier?_eq_none_of_isFieldAccess_eq_false hnode.1
    have hleft := h.leftmost?_eq
    rw [hend, chainEnd_of_qualifier?_eq_none hnone] at hleft
    rw [chainLength_of_qualifier?_eq_none hnone, Nat.zero_add] at hlength
    have hv := h.visited.computed h.at?_top hleft hnode.2
    rw [hlength] at hv
    exact .inl (hplace ▸ hv)

/-- **Every node is visited or on the chain of a field access that is.** -/
theorem visited_or_onChain (h : root.FollowsConventions) (hnode : root.at? p = some node) :
    root.Visited p ∨ ∃ top access depth, root.OnChain p node top access depth := by
  -- from the root down: a place leads to a child of the node at the place before it
  induction p using List.reverseRecOn generalizing node with
  | nil => exact .inl .root
  | append_singleton p i ih =>
    obtain ⟨parent, hparent, hchild⟩ := at?_concat_eq_some hnode
    by_cases hkind : parent.kind.isFieldAccess = true
    · obtain ⟨rfl, hq⟩ := h.qualifier? hparent hkind hchild
      rcases ih hparent with hp | ⟨top, access, depth, hchain⟩
      · exact (hp.qualifier hparent hkind hq).imp_right fun hc => ⟨_, _, _, hc⟩
      · exact (hchain.qualifier hparent hkind hq).imp_right fun hc => ⟨_, _, _, hc⟩
    · rcases ih hparent with hp | ⟨top, access, depth, hchain⟩
      · exact .inl (hp.child hparent (Bool.eq_false_iff.mpr hkind) hchild)
      · -- a name or `this` has no children
        have hnil := h.children_of_startsPath hparent (hchain.kind.resolve_left hkind)
        rw [hnil] at hchild
        cases hchild

end NameResolution.Node
