import NameResolution.Syntax.Contour

/-!
# Places in a syntax tree

A place is the list of child numbers that leads from the root to a node. Places compare
lexicographically, which is document order: a node comes before everything below it, and what
stands below a child before the next child.

A walk does not go everywhere. `Node.Visited` says by rules which places it visits: every child of
a visited node, except that of a field access only the computed value at the end of its chain is
visited. `Node.visits` lists these places (`Node.mem_visits_iff`) in document order
(`Node.pairwise_visits`).
-/

namespace NameResolution

/-- The child numbers from the root down to a node. -/
abbrev Place := List Nat

/-- The kind of the nodes `qualifier.field`. -/
def NodeKind.isFieldAccess : NodeKind → Bool
  | .fieldAccess _ => true
  | _ => false

namespace Node

/-- A property of trees holds when it passes from the children of a node to the node. -/
theorem induction {motive : Node → Prop}
    (step : ∀ kind start children, (∀ child ∈ children, motive child) →
      motive ⟨kind, start, children⟩) : ∀ node, motive node
  | ⟨kind, start, children⟩ => step kind start children fun child _ => induction step child

/-! ## The node at a place -/

/-- The node at a place; a place can lead out of the tree. -/
def at? : Node → Place → Option Node
  | node, [] => some node
  | node, i :: p => node.children[i]?.bind (·.at? p)

@[simp] theorem at?_nil (node : Node) : node.at? [] = some node := rfl

theorem at?_cons (node : Node) (i : Nat) (p : Place) :
    node.at? (i :: p) = node.children[i]?.bind (·.at? p) := rfl

theorem at?_cons_of_getElem? {node child : Node} {i : Nat} (h : node.children[i]? = some child)
    (p : Place) : node.at? (i :: p) = child.at? p := by
  rw [at?_cons, h, Option.bind_some]

theorem at?_append (node : Node) (p q : Place) :
    node.at? (p ++ q) = (node.at? p).bind (·.at? q) := by
  induction p generalizing node with
  | nil => rfl
  | cons i p ih =>
    rw [List.cons_append, at?_cons, at?_cons]
    cases node.children[i]? with
    | none => rfl
    | some child => exact ih child

theorem at?_append_of_at? {node inner : Node} {p : Place} (h : node.at? p = some inner)
    (q : Place) : node.at? (p ++ q) = inner.at? q := by
  rw [at?_append, h, Option.bind_some]

/-! ## Chains of field accesses -/

/-- The number of qualifiers between a node and the end of its chain. -/
def chainLength : Node → Nat
  | ⟨.fieldAccess _, _, q :: _⟩ => q.chainLength + 1
  | _ => 0
termination_by structural node => node

theorem chainLength_of_qualifier?_eq_none {node : Node} (h : node.qualifier? = none) :
    node.chainLength = 0 := by
  obtain ⟨kind, start, children⟩ := node
  cases kind <;> cases children <;> simp_all [qualifier?, chainLength]

theorem chainLength_of_qualifier?_eq_some {node q : Node} (h : node.qualifier? = some q) :
    node.chainLength = q.chainLength + 1 := by
  obtain ⟨kind, start, children⟩ := node
  cases kind <;> cases children <;> simp_all [qualifier?, chainLength]

theorem qualifier?_eq_none_of_isFieldAccess_eq_false {node : Node}
    (h : node.kind.isFieldAccess = false) : node.qualifier? = none := by
  obtain ⟨kind, start, children⟩ := node
  cases kind <;> first | rfl | cases h

theorem isFieldAccess_of_qualifier? {node : Node} (h : node.qualifier?.isSome) :
    node.kind.isFieldAccess = true := by
  cases hkind : node.kind.isFieldAccess with
  | true => rfl
  | false =>
    rw [qualifier?_eq_none_of_isFieldAccess_eq_false hkind] at h
    cases h

/-- The place of the end of the chain. -/
theorem at?_chainEnd (node : Node) :
    node.at? (List.replicate node.chainLength 0) = some node.chainEnd := by
  induction node using Node.induction with
  | step kind start children ih =>
    cases kind with
    | fieldAccess field =>
      cases children with
      | nil => rfl
      | cons q rest =>
        rw [chainLength, List.replicate_succ, at?_cons, chainEnd]
        exact ih q List.mem_cons_self
    | _ => rfl

/-- The cases of a walk: a field access has no qualifier, or stands for a path, or for a computed
value, which is walked in its place; of every other node the children are walked. -/
theorem walkInduction {motive : Node → Prop}
    (empty : ∀ field start, motive ⟨.fieldAccess field, start, []⟩)
    (path : ∀ field start q rest, q.chainEnd.kind.startsPath = true →
      motive ⟨.fieldAccess field, start, q :: rest⟩)
    (computed : ∀ field start q rest, q.chainEnd.kind.startsPath = false → motive q →
      motive ⟨.fieldAccess field, start, q :: rest⟩)
    (inner : ∀ node : Node, node.kind.isFieldAccess = false →
      (∀ child ∈ node.children, motive child) → motive node)
    (node : Node) : motive node := by
  induction node using Node.induction with
  | step kind start children ih =>
    cases hkind : kind.isFieldAccess with
    | false => exact inner _ hkind ih
    | true =>
      cases kind with
      | fieldAccess field =>
        cases children with
        | nil => exact empty field start
        | cons q rest =>
          cases hend : q.chainEnd.kind.startsPath with
          | true => exact path field start q rest hend
          | false => exact computed field start q rest hend (ih q List.mem_cons_self)
      | _ => cases hkind

/-! ## Visited places -/

/-- The places that a walk visits. -/
inductive Visited (root : Node) : Place → Prop where
  | root : Visited root []
  | child {p : Place} {node child : Node} {i : Nat} (hp : Visited root p)
      (hnode : root.at? p = some node) (hkind : node.kind.isFieldAccess = false)
      (hchild : node.children[i]? = some child) : Visited root (p ++ [i])
  | computed {p : Place} {node value : Node} (hp : Visited root p)
      (hnode : root.at? p = some node) (hvalue : node.leftmost? = some value)
      (hkind : value.kind.startsPath = false) :
      Visited root (p ++ List.replicate node.chainLength 0)

mutual

/-- The visited places below the root of a tree, in document order. -/
def visitsBelow : Node → List Place
  | ⟨.fieldAccess _, _, []⟩ => []
  | ⟨.fieldAccess _, _, q :: _⟩ =>
    if q.chainEnd.kind.startsPath then []
    -- a qualifier that has a qualifier itself is passed over
    else if q.qualifier?.isSome then q.visitsBelow.map (0 :: ·)
    else ([] :: q.visitsBelow).map (0 :: ·)
  | ⟨_, _, children⟩ => visitsAll 0 children
termination_by structural node => node

/-- The visited places of the children of a node, the first of them being child `i`. -/
def visitsAll : Nat → List Node → List Place
  | _, [] => []
  | i, child :: rest => ([] :: child.visitsBelow).map (i :: ·) ++ visitsAll (i + 1) rest
termination_by structural _ nodes => nodes

end

/-- The visited places of a tree, in document order. -/
def visits (root : Node) : List Place := [] :: root.visitsBelow

theorem visitsBelow_of_isFieldAccess_eq_false {node : Node} (h : node.kind.isFieldAccess = false) :
    node.visitsBelow = visitsAll 0 node.children := by
  obtain ⟨kind, start, children⟩ := node
  cases kind <;> simp_all [visitsBelow, NodeKind.isFieldAccess]

theorem visitsAll_cons (i : Nat) (child : Node) (rest : List Node) :
    visitsAll i (child :: rest) = child.visits.map (i :: ·) ++ visitsAll (i + 1) rest := rfl

theorem mem_visitsAll {i : Nat} {nodes : List Node} {p : Place} :
    p ∈ visitsAll i nodes ↔
      ∃ j child q, nodes[j]? = some child ∧ q ∈ child.visits ∧ p = (i + j) :: q := by
  induction nodes generalizing i with
  | nil => simp [visitsAll]
  | cons node rest ih =>
    rw [visitsAll_cons, List.mem_append, List.mem_map, ih]
    constructor
    · rintro (⟨q, hq, rfl⟩ | ⟨j, child, q, hchild, hq, rfl⟩)
      · exact ⟨0, node, q, rfl, hq, rfl⟩
      · exact ⟨j + 1, child, q, hchild, hq, by rw [Nat.add_right_comm, Nat.add_assoc]⟩
    · rintro ⟨_ | j, child, q, hchild, hq, rfl⟩
      · exact .inl ⟨q, Option.some.inj hchild ▸ hq, rfl⟩
      · exact .inr ⟨j, child, q, hchild, hq, by rw [Nat.add_right_comm, Nat.add_assoc]⟩

theorem mem_visits_cons {node : Node} (h : node.kind.isFieldAccess = false) {i : Nat} {p : Place} :
    i :: p ∈ node.visits ↔ ∃ child, node.children[i]? = some child ∧ p ∈ child.visits := by
  rw [visits, visitsBelow_of_isFieldAccess_eq_false h, List.mem_cons, mem_visitsAll]
  constructor
  · rintro (h | ⟨j, child, q, hchild, hq, he⟩)
    · exact absurd h nofun
    · obtain ⟨rfl, rfl⟩ := List.cons.inj he
      exact ⟨child, by rwa [Nat.zero_add], hq⟩
  · rintro ⟨child, hchild, hp⟩
    exact .inr ⟨i, child, p, hchild, hp, by rw [Nat.zero_add]⟩

/-- Below a field access on a computed value the visits are those of its qualifier, which is not
visited itself when the chain goes on. -/
theorem visitsBelow_fieldAccess {field : String} {start : LineCol} {q : Node} {rest : List Node}
    (h : q.chainEnd.kind.startsPath = false) :
    visitsBelow ⟨.fieldAccess field, start, q :: rest⟩ =
      (if q.qualifier?.isSome then q.visitsBelow else q.visits).map (0 :: ·) := by
  rw [visitsBelow, h]
  cases q.qualifier?.isSome <;> rfl

theorem visitsBelow_of_startsPath {field : String} {start : LineCol} {q : Node}
    {rest : List Node} (h : q.chainEnd.kind.startsPath = true) :
    visitsBelow ⟨.fieldAccess field, start, q :: rest⟩ = [] := by
  rw [visitsBelow, h, if_pos rfl]

theorem nil_notMem_visitsBelow (node : Node) : [] ∉ node.visitsBelow := by
  induction node using walkInduction with
  | empty field start => simp [visitsBelow]
  | path field start q rest hend => simp [visitsBelow_of_startsPath hend]
  | computed field start q rest hend _ => simp [visitsBelow_fieldAccess hend]
  | inner node hkind _ =>
    rw [visitsBelow_of_isFieldAccess_eq_false hkind, mem_visitsAll]
    rintro ⟨_, _, _, _, _, he⟩
    cases he

theorem mem_visitsBelow_iff {node : Node} {p : Place} :
    p ∈ node.visitsBelow ↔ p ∈ node.visits ∧ p ≠ [] := by
  rw [visits, List.mem_cons]
  constructor
  · intro h
    exact ⟨.inr h, fun he => node.nil_notMem_visitsBelow (he ▸ h)⟩
  · rintro ⟨rfl | h, hne⟩
    · exact absurd rfl hne
    · exact h

/-- Below a field access on a computed value, the visits of its qualifier other than the qualifier
itself when the chain goes on. -/
theorem mem_visits_fieldAccess {field : String} {start : LineCol} {q : Node} {rest : List Node}
    (h : q.chainEnd.kind.startsPath = false) {i : Nat} {p : Place} :
    i :: p ∈ visits ⟨.fieldAccess field, start, q :: rest⟩ ↔
      i = 0 ∧ p ∈ q.visits ∧ (q.qualifier?.isSome → p ≠ []) := by
  rw [visits, List.mem_cons, visitsBelow_fieldAccess h, List.mem_map]
  simp only [reduceCtorEq, false_or, List.cons.injEq]
  constructor
  · rintro ⟨q', hq', rfl, rfl⟩
    split at hq'
    · rename_i hsome
      exact ⟨rfl, (mem_visitsBelow_iff.mp hq').1, fun _ => (mem_visitsBelow_iff.mp hq').2⟩
    · rename_i hnone
      exact ⟨rfl, hq', fun hsome => absurd hsome hnone⟩
  · rintro ⟨rfl, hp, hne⟩
    refine ⟨p, ?_, rfl, rfl⟩
    split
    · rename_i hsome
      exact mem_visitsBelow_iff.mpr ⟨hp, hne hsome⟩
    · exact hp

/-! ## The list of visits is the visited places -/

theorem Visited.isSome_at? {root : Node} {p : Place} (h : root.Visited p) :
    (root.at? p).isSome := by
  cases h with
  | root => rfl
  | child _ hnode _ hchild =>
    rw [at?_append_of_at? hnode, at?_cons_of_getElem? hchild]
    rfl
  | computed _ hnode =>
    rw [at?_append_of_at? hnode, at?_chainEnd]
    rfl

theorem Visited.cons {node child : Node} {i : Nat} {p : Place} (h : child.Visited p)
    (hkind : node.kind.isFieldAccess = false) (hchild : node.children[i]? = some child) :
    node.Visited (i :: p) := by
  induction h with
  | root => exact Visited.root.child rfl hkind hchild
  | child _ hnode hinner hc ih =>
    exact ih.child ((at?_cons_of_getElem? hchild _).trans hnode) hinner hc
  | computed _ hnode hvalue hinner ih =>
    exact ih.computed ((at?_cons_of_getElem? hchild _).trans hnode) hvalue hinner

theorem Visited.fieldAccess {field : String} {start : LineCol} {q : Node} {rest : List Node}
    {p : Place} (h : q.Visited p) (hend : q.chainEnd.kind.startsPath = false) :
    (p = [] ∧ q.qualifier?.isSome) ∨ Visited ⟨.fieldAccess field, start, q :: rest⟩ (0 :: p) := by
  have hat (p : Place) : at? ⟨.fieldAccess field, start, q :: rest⟩ (0 :: p) = q.at? p := rfl
  have hbottom {value : Node} (hvalue : q.chainEnd = value) :
      Visited ⟨.fieldAccess field, start, q :: rest⟩ (0 :: List.replicate q.chainLength 0) :=
    Visited.root.computed rfl (congrArg some hvalue) (hvalue ▸ hend)
  induction h with
  | root =>
    cases hq : q.qualifier? with
    | some inner => exact .inl ⟨rfl, rfl⟩
    | none =>
      have hb := hbottom rfl
      rw [chainLength_of_qualifier?_eq_none hq] at hb
      exact .inr hb
  | @child p node child i hp hnode hkind hchild ih =>
    refine .inr ?_
    rcases ih with ⟨rfl, hq⟩ | ih
    · -- the qualifier itself has children to visit only when its chain ends there
      obtain rfl : q = node := Option.some.inj hnode
      cases hkind.symm.trans (isFieldAccess_of_qualifier? hq)
    · exact ih.child ((hat _).trans hnode) hkind hchild
  | @computed p node value hp hnode hvalue hkind ih =>
    refine .inr ?_
    rcases ih with ⟨rfl, -⟩ | ih
    · obtain rfl : q = node := Option.some.inj hnode
      exact hbottom rfl
    · exact ih.computed ((hat _).trans hnode) hvalue hkind

theorem visited_of_mem_visits {node : Node} {p : Place} (h : p ∈ node.visits) : node.Visited p := by
  induction node using walkInduction generalizing p with
  | empty field start =>
    obtain rfl : p = [] := by simpa [visits, visitsBelow] using h
    exact .root
  | path field start q rest hend =>
    obtain rfl : p = [] := by simpa [visits, visitsBelow_of_startsPath hend] using h
    exact .root
  | computed field start q rest hend ih =>
    cases p with
    | nil => exact .root
    | cons i p =>
      obtain ⟨rfl, hp, hne⟩ := (mem_visits_fieldAccess hend).mp h
      rcases (ih hp).fieldAccess hend with ⟨hnil, hq⟩ | hv
      · exact absurd hnil (hne hq)
      · exact hv
  | inner node hkind ih =>
    cases p with
    | nil => exact .root
    | cons i p =>
      obtain ⟨child, hchild, hp⟩ := (mem_visits_cons hkind).mp h
      exact (ih child (List.mem_of_getElem? hchild) hp).cons hkind hchild

/-- The visits of a visited subtree are visits of the tree. -/
theorem append_mem_visits {root node : Node} {p q : Place} (hp : p ∈ root.visits)
    (hnode : root.at? p = some node) (hq : q ∈ node.visits) : p ++ q ∈ root.visits := by
  have hnil (root : Node) (h : root.at? [] = some node) : [] ++ q ∈ root.visits := by
    obtain rfl := Option.some.inj h
    exact hq
  induction root using walkInduction generalizing p with
  | empty field start =>
    obtain rfl : p = [] := by simpa [visits, visitsBelow] using hp
    exact hnil _ hnode
  | path field start value rest hend =>
    obtain rfl : p = [] := by simpa [visits, visitsBelow_of_startsPath hend] using hp
    exact hnil _ hnode
  | computed field start value rest hend ih =>
    cases p with
    | nil => exact hnil _ hnode
    | cons i p =>
      obtain ⟨rfl, hp, hne⟩ := (mem_visits_fieldAccess hend).mp hp
      refine (mem_visits_fieldAccess hend).mpr ⟨rfl, ih hp hnode, ?_⟩
      intro hsome happ
      exact hne hsome (List.append_eq_nil_iff.mp happ).1
  | inner root hkind ih =>
    cases p with
    | nil => exact hnil _ hnode
    | cons i p =>
      obtain ⟨child, hchild, hp⟩ := (mem_visits_cons hkind).mp hp
      rw [at?_cons_of_getElem? hchild] at hnode
      exact (mem_visits_cons hkind).mpr
        ⟨child, hchild, ih child (List.mem_of_getElem? hchild) hp hnode⟩

/-- A computed value is visited from its field access. -/
theorem replicate_mem_visits {node value : Node} (hvalue : node.leftmost? = some value)
    (hkind : value.kind.startsPath = false) :
    List.replicate node.chainLength 0 ∈ node.visits := by
  induction node using Node.induction generalizing value with
  | step kind start children ih =>
    cases kind with
    | fieldAccess field =>
      cases children with
      | nil => cases hvalue
      | cons q rest =>
        obtain rfl : q.chainEnd = value := Option.some.inj hvalue
        rw [chainLength, List.replicate_succ]
        cases hq : q.qualifier? with
        | none =>
          rw [chainLength_of_qualifier?_eq_none hq]
          exact (mem_visits_fieldAccess hkind).mpr ⟨rfl, List.mem_cons_self, by simp [hq]⟩
        | some inner =>
          have hinner : q.leftmost? = some q.chainEnd := by
            rw [leftmost?_eq_of_qualifier? hq, chainEnd_of_qualifier?_eq_some hq]
          refine (mem_visits_fieldAccess hkind).mpr ⟨rfl, ih q List.mem_cons_self hinner hkind, ?_⟩
          intro _ hnil
          rw [List.replicate_eq_nil_iff, chainLength_of_qualifier?_eq_some hq] at hnil
          omega
    | _ => cases hvalue

theorem mem_visits_iff {root : Node} {p : Place} : p ∈ root.visits ↔ root.Visited p := by
  constructor
  · exact visited_of_mem_visits
  · intro h
    induction h with
    | root => exact List.mem_cons_self
    | child _ hnode hkind hchild ih =>
      exact append_mem_visits ih hnode
        ((mem_visits_cons hkind).mpr ⟨_, hchild, List.mem_cons_self⟩)
    | computed _ hnode hvalue hkind ih =>
      exact append_mem_visits ih hnode (replicate_mem_visits hvalue hkind)

/-! ## The list of visits is in document order -/

theorem pairwise_visitsAll {nodes : List Node} (h : ∀ node ∈ nodes, node.visits.Pairwise (· < ·))
    (i : Nat) : (visitsAll i nodes).Pairwise (· < ·) := by
  induction nodes generalizing i with
  | nil => exact .nil
  | cons node rest ih =>
    rw [visitsAll_cons, List.pairwise_append, List.pairwise_map]
    refine ⟨?_, ih (fun n hn => h n (List.mem_cons_of_mem _ hn)) (i + 1), ?_⟩
    · refine (h node List.mem_cons_self).imp fun {p q} hpq => ?_
      exact List.cons_lt_cons_iff.mpr (.inr ⟨rfl, hpq⟩)
    · intro p hp q hq
      obtain ⟨p', -, rfl⟩ := List.mem_map.mp hp
      obtain ⟨j, _, q', -, -, rfl⟩ := mem_visitsAll.mp hq
      exact List.cons_lt_cons_iff.mpr (.inl (by omega))

theorem pairwise_visits (node : Node) : node.visits.Pairwise (· < ·) := by
  have hroot (node : Node) (h : node.visitsBelow.Pairwise (· < ·)) :
      node.visits.Pairwise (· < ·) := by
    rw [visits, List.pairwise_cons]
    refine ⟨?_, h⟩
    intro p hp
    cases p with
    | nil => exact absurd hp (nil_notMem_visitsBelow _)
    | cons i p => exact List.nil_lt_cons i p
  induction node using walkInduction with
  | empty field start => exact hroot _ .nil
  | path field start q rest hend =>
    apply hroot
    rw [visitsBelow_of_startsPath hend]
    exact .nil
  | computed field start q rest hend ih =>
    apply hroot
    rw [visitsBelow_fieldAccess hend, List.pairwise_map]
    have hlist : (if q.qualifier?.isSome then q.visitsBelow else q.visits).Pairwise (· < ·) := by
      split
      · exact (List.pairwise_cons.mp ih).2
      · exact ih
    exact hlist.imp fun {p q} hpq => List.cons_lt_cons_iff.mpr (.inr ⟨rfl, hpq⟩)
  | inner node hkind ih =>
    apply hroot
    rw [visitsBelow_of_isFieldAccess_eq_false hkind]
    exact pairwise_visitsAll ih 0

end Node

end NameResolution
