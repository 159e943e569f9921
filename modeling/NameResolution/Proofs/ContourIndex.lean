import Mathlib.Algebra.Ring.Nat
import NameResolution.Proofs.Place

/-!
# Counting contours

The nearest contour around a place is the first place above it whose node opens contours
(`Node.contourAbove?`). A contour is numbered by the visited contours before it in the whole tree
that have the same nearest contour (`Node.contourIndex`).

Both are read off the child that leads to a place: `Node.contourAbove?_cons` and, for a child that
a walk enters, `Node.contourIndex_cons`.
-/

namespace NameResolution

namespace Place

/-- The places above a place, nearest first. -/
def above : Place → List Place
  | [] => []
  | i :: p => (above p).map (i :: ·) ++ [[]]

theorem length_lt_of_mem_above {p q : Place} (h : q ∈ above p) : q.length < p.length := by
  induction p generalizing q with
  | nil => cases h
  | cons i p ih =>
    rw [above, List.mem_append, List.mem_map, List.mem_singleton] at h
    rcases h with ⟨q', hq', rfl⟩ | rfl
    · exact Nat.succ_lt_succ (ih hq')
    · exact Nat.succ_pos _

end Place

namespace Node

/-- The number of contours that the node at a place opens. -/
def contourDepthAt (root : Node) (p : Place) : Nat :=
  ((root.at? p).map (·.kind.contourDepth)).getD 0

/-- The node at a place opens contours. -/
def opensAt (root : Node) (p : Place) : Bool := decide (0 < root.contourDepthAt p)

/-- The nearest place above a place whose node opens contours. -/
def contourAbove? (root : Node) (p : Place) : Option Place := (Place.above p).find? root.opensAt

/-- The node at `q` opens contours, stands before the place `p` and has the same nearest contour. -/
def precedes (root : Node) (p q : Place) : Bool :=
  decide (q < p) && root.opensAt q && root.contourAbove? q == root.contourAbove? p

/-- The number of visited contours before a place that have the same nearest contour. -/
def contourIndex (root : Node) (p : Place) : Nat := root.visits.countP (root.precedes p)

/-- The number of visited contours that stand in no other contour of the tree. -/
def topContours (root : Node) : Nat :=
  root.visits.countP fun q => root.opensAt q && (root.contourAbove? q).isNone

theorem contourDepthAt_nil (node : Node) : node.contourDepthAt [] = node.kind.contourDepth := rfl

theorem contourDepthAt_cons {node child : Node} {i : Nat} (h : node.children[i]? = some child)
    (p : Place) : node.contourDepthAt (i :: p) = child.contourDepthAt p := by
  rw [contourDepthAt, at?_cons_of_getElem? h, contourDepthAt]

theorem opensAt_nil (node : Node) : node.opensAt [] = decide (0 < node.kind.contourDepth) := rfl

theorem opensAt_nil_of_eq_zero {node : Node} (h : node.kind.contourDepth = 0) :
    node.opensAt [] = false := by
  rw [opensAt_nil, h]
  rfl

theorem opensAt_nil_of_eq_succ {node : Node} {more : Nat}
    (h : node.kind.contourDepth = more + 1) : node.opensAt [] = true := by
  rw [opensAt_nil, h]
  exact decide_eq_true (Nat.succ_pos more)

theorem opensAt_cons {node child : Node} {i : Nat} (h : node.children[i]? = some child)
    (p : Place) : node.opensAt (i :: p) = child.opensAt p := by
  rw [opensAt, contourDepthAt_cons h, opensAt]

theorem contourDepth_eq_zero_of_isFieldAccess {kind : NodeKind} (h : kind.isFieldAccess = true) :
    kind.contourDepth = 0 := by
  cases kind <;> first | rfl | cases h

theorem contourDepth_of_qualifier? {node : Node} (h : node.qualifier?.isSome) :
    node.kind.contourDepth = 0 :=
  contourDepth_eq_zero_of_isFieldAccess (isFieldAccess_of_qualifier? h)

theorem opensAt_nil_of_qualifier? {node : Node} (h : node.qualifier?.isSome) :
    node.opensAt [] = false :=
  opensAt_nil_of_eq_zero (contourDepth_of_qualifier? h)

/-! ## The nearest contour -/

@[simp] theorem contourAbove?_nil (node : Node) : node.contourAbove? [] = none := rfl

theorem contourAbove?_cons {node child : Node} {i : Nat} (h : node.children[i]? = some child)
    (p : Place) :
    node.contourAbove? (i :: p) =
      ((child.contourAbove? p).map (i :: ·)).or (if node.opensAt [] then some [] else none) := by
  have hcomp : node.opensAt ∘ (i :: ·) = child.opensAt := funext fun q => opensAt_cons h q
  rw [contourAbove?, Place.above, List.find?_append, List.find?_map, hcomp, contourAbove?]
  congr 1
  rw [List.find?_cons]
  cases node.opensAt [] <;> rfl

theorem contourAbove?_cons_of_some {node child : Node} {i : Nat}
    (h : node.children[i]? = some child) {p c : Place} (hc : child.contourAbove? p = some c) :
    node.contourAbove? (i :: p) = some (i :: c) := by
  rw [contourAbove?_cons h, hc]
  rfl

theorem contourAbove?_cons_of_none {node child : Node} {i : Nat}
    (h : node.children[i]? = some child) {p : Place} (hc : child.contourAbove? p = none) :
    node.contourAbove? (i :: p) = if node.opensAt [] then some [] else none := by
  rw [contourAbove?_cons h, hc]
  rfl

theorem length_contourAbove?_lt {node : Node} {p c : Place} (h : node.contourAbove? p = some c) :
    c.length < p.length :=
  Place.length_lt_of_mem_above (List.mem_of_find?_eq_some h)

/-- Two places have the same nearest contour below a child when they have it in the tree. -/
theorem contourAbove?_cons_inj {node child : Node} {i : Nat} (h : node.children[i]? = some child)
    {p q : Place} :
    node.contourAbove? (i :: q) = node.contourAbove? (i :: p) ↔
      child.contourAbove? q = child.contourAbove? p := by
  rw [contourAbove?_cons h, contourAbove?_cons h]
  cases child.contourAbove? q <;> cases child.contourAbove? p <;>
    by_cases hopen : node.opensAt [] = true <;> simp [hopen]

/-- Places below different children have the same nearest contour only when neither has one below
its child. -/
theorem contourAbove?_cons_eq_cons_iff {node first second : Node} {i j : Nat}
    (hi : node.children[i]? = some first) (hj : node.children[j]? = some second) (hne : j ≠ i)
    {p q : Place} :
    node.contourAbove? (j :: q) = node.contourAbove? (i :: p) ↔
      second.contourAbove? q = none ∧ first.contourAbove? p = none := by
  rw [contourAbove?_cons hi, contourAbove?_cons hj]
  cases second.contourAbove? q <;> cases first.contourAbove? p <;>
    by_cases hopen : node.opensAt [] = true <;> simp [hopen, hne]

/-! ## Counting over the visits below a node -/

/-- A walk of a node goes on to its child `i`. -/
structure Enters (node : Node) (i : Nat) (child : Node) : Prop where
  getElem? : node.children[i]? = some child
  of_isFieldAccess : node.kind.isFieldAccess = true → i = 0 ∧ child.chainEnd.kind.startsPath = false

theorem visitsAll_append (i : Nat) (as bs : List Node) :
    visitsAll i (as ++ bs) = visitsAll i as ++ visitsAll (i + as.length) bs := by
  induction as generalizing i with
  | nil => rfl
  | cons a as ih =>
    rw [List.cons_append, visitsAll_cons, visitsAll_cons, ih, List.append_assoc, List.length_cons,
      Nat.add_right_comm, Nat.add_assoc]

/-- What is counted in each child as its outermost contours sums up over the children. -/
theorem countP_visitsAll {i : Nat} {nodes : List Node} {P : Place → Bool}
    (h : ∀ j child, nodes[j]? = some child → ∀ q,
      P ((i + j) :: q) = (child.opensAt q && (child.contourAbove? q).isNone)) :
    (visitsAll i nodes).countP P = (nodes.map topContours).sum := by
  induction nodes generalizing i with
  | nil => rfl
  | cons node rest ih =>
    have hrest : (visitsAll (i + 1) rest).countP P = (rest.map topContours).sum := by
      refine ih fun j child hj q => ?_
      rw [Nat.add_right_comm, Nat.add_assoc]
      exact h (j + 1) child hj q
    have hnode : P ∘ (i :: ·) = fun q => node.opensAt q && (node.contourAbove? q).isNone :=
      funext fun q => h 0 node rfl q
    rw [visitsAll_cons, List.countP_append, List.countP_map, hrest, hnode, List.map_cons,
      List.sum_cons, topContours]

/-- Passing over a qualifier that goes on changes no count of contours. -/
theorem countP_visits_fieldAccess {field : String} {start : LineCol} {q : Node}
    {rest : List Node} (hend : q.chainEnd.kind.startsPath = false) {P : Place → Bool}
    (hP : ∀ p, P p = true → opensAt ⟨.fieldAccess field, start, q :: rest⟩ p = true) :
    (visits ⟨.fieldAccess field, start, q :: rest⟩).countP P =
      q.visits.countP (P ∘ (0 :: ·)) := by
  have hroot : ¬ P [] = true := by
    intro h
    have hopen := hP [] h
    simp [opensAt_nil, NodeKind.contourDepth] at hopen
  rw [visits, List.countP_cons_of_neg hroot, visitsBelow_fieldAccess hend, List.countP_map]
  split
  · rename_i hsome
    have hinner : ¬ (P ∘ (0 :: ·)) [] = true := by
      intro h
      have hopen : q.opensAt [] = true := (opensAt_cons rfl []).symm.trans (hP [0] h)
      cases hopen.symm.trans (opensAt_nil_of_qualifier? hsome)
    rw [visits, List.countP_cons_of_neg hinner]
  · rfl

/-! ## The number of a contour, from the child it stands below -/

theorem precedes_iff {root : Node} {p q : Place} :
    root.precedes p q = true ↔
      q < p ∧ root.opensAt q = true ∧ root.contourAbove? q = root.contourAbove? p := by
  simp [precedes, and_assoc]

theorem contourIndex_nil (node : Node) : node.contourIndex [] = 0 := by
  refine List.countP_eq_zero.mpr fun q _ hq => ?_
  exact List.not_lt_nil q (precedes_iff.mp hq).1

/-- The root is in no contour that one of its children is in. -/
theorem not_precedes_nil {node child : Node} {i : Nat} (h : node.children[i]? = some child)
    (p : Place) : ¬ node.precedes (i :: p) [] = true := by
  intro hroot
  obtain ⟨-, hopen, habove⟩ := precedes_iff.mp hroot
  rw [contourAbove?_cons h, hopen] at habove
  cases hc : child.contourAbove? p <;> simp [hc] at habove

theorem precedes_cons {node child : Node} {i : Nat} (h : node.children[i]? = some child)
    (p q : Place) : node.precedes (i :: p) (i :: q) = child.precedes p q := by
  rw [Bool.eq_iff_iff, precedes_iff, precedes_iff, contourAbove?_cons_inj h, opensAt_cons h,
    List.cons_lt_cons_iff]
  simp

/-- In an earlier child the contours that stand in no other one of that child come before `p`, if
`p` stands in none of its own child. -/
theorem precedes_cons_of_lt {node first second : Node} {i j : Nat} (hji : j < i)
    (hi : node.children[i]? = some first) (hj : node.children[j]? = some second) (p q : Place) :
    node.precedes (i :: p) (j :: q) =
      ((first.contourAbove? p).isNone &&
        (second.opensAt q && (second.contourAbove? q).isNone)) := by
  have hlt : j :: q < i :: p := List.cons_lt_cons_iff.mpr (.inl hji)
  rw [Bool.eq_iff_iff, precedes_iff, opensAt_cons hj,
    contourAbove?_cons_eq_cons_iff hi hj (Nat.ne_of_lt hji)]
  simp only [hlt, true_and, Bool.and_eq_true, Option.isNone_iff_eq_none]
  constructor
  · rintro ⟨hopen, hq, hp⟩
    exact ⟨hp, hopen, hq⟩
  · rintro ⟨hp, hopen, hq⟩
    exact ⟨hopen, hq, hp⟩

theorem Enters.eq_append {node child : Node} {i : Nat} (h : node.Enters i child) :
    node.children = node.children.take i ++ child :: node.children.drop (i + 1) ∧
      (node.children.take i).length = i := by
  obtain ⟨hi, rfl⟩ := List.getElem?_eq_some_iff.mp h.getElem?
  rw [List.getElem_cons_drop, List.take_append_drop]
  exact ⟨rfl, List.length_take_of_le (Nat.le_of_lt hi)⟩

/-- Counts over the earlier children. -/
theorem countP_precedes_take {node child : Node} {i : Nat} (h : node.children[i]? = some child)
    (p : Place) :
    (visitsAll 0 (node.children.take i)).countP (node.precedes (i :: p)) =
      if (child.contourAbove? p).isNone then ((node.children.take i).map topContours).sum
        else 0 := by
  have hearlier (j : Nat) (other : Node) (hj : (node.children.take i)[j]? = some other)
      (q : Place) : node.precedes (i :: p) ((0 + j) :: q) =
        ((child.contourAbove? p).isNone &&
          (other.opensAt q && (other.contourAbove? q).isNone)) := by
    rw [List.getElem?_take] at hj
    split at hj
    · rename_i hji
      rw [Nat.zero_add]
      exact precedes_cons_of_lt hji h hj p q
    · cases hj
  cases hp : (child.contourAbove? p).isNone with
  | true =>
    refine countP_visitsAll fun j other hj q => ?_
    rw [hearlier j other hj, hp, Bool.true_and]
  | false =>
    refine List.countP_eq_zero.mpr fun q hq => ?_
    obtain ⟨j, other, q, hj, -, rfl⟩ := mem_visitsAll.mp hq
    rw [hearlier j other hj, hp]
    exact Bool.false_ne_true

/-- Nothing in a later child comes before the place. -/
theorem countP_precedes_drop (node : Node) (i : Nat) (p : Place) (later : List Node) :
    (visitsAll (i + 1) later).countP (node.precedes (i :: p)) = 0 := by
  refine List.countP_eq_zero.mpr fun q hq hprec => ?_
  obtain ⟨j, _, q, -, -, rfl⟩ := mem_visitsAll.mp hq
  have hlt := (precedes_iff.mp hprec).1
  rw [List.cons_lt_cons_iff] at hlt
  omega

/-- The contours before a contour: those in the earlier children, unless it stands in a contour of
its own child, and those before it in that child. -/
theorem contourIndex_cons {node child : Node} {i : Nat} (h : node.Enters i child) (p : Place) :
    node.contourIndex (i :: p) =
      (if (child.contourAbove? p).isNone then ((node.children.take i).map topContours).sum else 0) +
        child.contourIndex p := by
  have hat := h.getElem?
  have hchild : node.precedes (i :: p) ∘ (i :: ·) = child.precedes p :=
    funext fun q => precedes_cons hat p q
  by_cases hkind : node.kind.isFieldAccess = true
  · obtain ⟨rfl, hend⟩ := h.of_isFieldAccess hkind
    obtain ⟨kind, start, children⟩ := node
    cases kind with
    | fieldAccess field =>
      cases children with
      | nil => cases hat
      | cons q rest =>
        obtain rfl : q = child := Option.some.inj hat
        rw [contourIndex, countP_visits_fieldAccess hend fun _ hq => (precedes_iff.mp hq).2.1,
          hchild]
        simp [contourIndex]
    | _ => cases hkind
  · -- the visits are those of the earlier children, of this one and of the later ones
    obtain ⟨hsplit, hlen⟩ := h.eq_append
    have hvisits : node.visits = [] :: (visitsAll 0 (node.children.take i) ++
        (child.visits.map (i :: ·) ++ visitsAll (i + 1) (node.children.drop (i + 1)))) := by
      rw [visits, visitsBelow_of_isFieldAccess_eq_false (Bool.eq_false_iff.mpr hkind)]
      conv => lhs; rw [hsplit, visitsAll_append, visitsAll_cons, Nat.zero_add, hlen]
    rw [contourIndex, hvisits, List.countP_cons_of_neg (not_precedes_nil hat p),
      List.countP_append, List.countP_append, List.countP_map, hchild, countP_precedes_take hat,
      countP_precedes_drop, Nat.add_zero, contourIndex]

/-! ## The outermost contours of a tree -/

theorem topContours_of_opens {node : Node} (hkind : node.kind.isFieldAccess = false)
    (h : node.opensAt [] = true) : node.topContours = 1 := by
  rw [topContours, visits, List.countP_cons_of_pos (by simp [h])]
  refine congrArg (· + 1) (List.countP_eq_zero.mpr fun q hq => ?_)
  rw [visitsBelow_of_isFieldAccess_eq_false hkind] at hq
  obtain ⟨j, child, q, hchild, -, rfl⟩ := mem_visitsAll.mp hq
  rw [Nat.zero_add, contourAbove?_cons hchild, h]
  cases child.contourAbove? q <;> simp

theorem topContours_of_not_opens {node : Node} (hkind : node.kind.isFieldAccess = false)
    (h : node.opensAt [] = false) : node.topContours = (node.children.map topContours).sum := by
  rw [topContours, visits, List.countP_cons_of_neg (by simp [h]),
    visitsBelow_of_isFieldAccess_eq_false hkind]
  refine countP_visitsAll fun j child hchild q => ?_
  rw [Nat.zero_add, opensAt_cons hchild, contourAbove?_cons hchild, h]
  cases child.contourAbove? q <;> rfl

theorem topContours_fieldAccess {field : String} {start : LineCol} {q : Node} {rest : List Node}
    (h : q.chainEnd.kind.startsPath = false) :
    topContours ⟨.fieldAccess field, start, q :: rest⟩ = q.topContours := by
  rw [topContours, countP_visits_fieldAccess h, topContours]
  · refine List.countP_congr fun p _ => ?_
    rw [Function.comp_apply, opensAt_cons rfl, contourAbove?_cons rfl]
    cases q.contourAbove? p <;> simp [opensAt_nil, NodeKind.contourDepth]
  · intro p hp
    exact (Bool.and_eq_true _ _ ▸ hp).1

theorem topContours_of_visitsBelow_eq_nil {field : String} {start : LineCol}
    {children : List Node} (h : visitsBelow ⟨.fieldAccess field, start, children⟩ = []) :
    topContours ⟨.fieldAccess field, start, children⟩ = 0 := by
  rw [topContours, visits, h]
  rfl

theorem cons_mem_above {i : Nat} {p c : Place} (h : i :: c ∈ Place.above p) :
    ∃ j q, p = j :: q ∧ i = j ∧ c ∈ Place.above q := by
  cases p with
  | nil => cases h
  | cons j q =>
    rw [Place.above, List.mem_append, List.mem_map, List.mem_singleton] at h
    rcases h with ⟨c', hc', heq⟩ | h
    · obtain ⟨rfl, rfl⟩ := List.cons.inj heq
      exact ⟨_, q, rfl, rfl, hc'⟩
    · cases h

/-- What opens contours around a visited place is visited itself. -/
theorem mem_visits_of_mem_above {node : Node} {p c : Place} (hp : p ∈ node.visits)
    (hc : c ∈ Place.above p) (hopen : node.opensAt c = true) : c ∈ node.visits := by
  induction node using walkInduction generalizing p c with
  | empty field start =>
    obtain rfl : p = [] := by simpa [visits, visitsBelow] using hp
    cases hc
  | path field start q rest hend =>
    obtain rfl : p = [] := by simpa [visits, visitsBelow_of_startsPath hend] using hp
    cases hc
  | computed field start q rest hend ih =>
    cases c with
    | nil => exact List.mem_cons_self
    | cons j c =>
      obtain ⟨i, p, rfl, rfl, hbelow⟩ := cons_mem_above hc
      obtain ⟨rfl, hp, -⟩ := (mem_visits_fieldAccess hend).mp hp
      rw [opensAt_cons rfl] at hopen
      refine (mem_visits_fieldAccess hend).mpr ⟨rfl, ih hp hbelow hopen, ?_⟩
      -- a qualifier that has a qualifier opens nothing
      rintro hsome rfl
      cases hopen.symm.trans (opensAt_nil_of_qualifier? hsome)
  | inner node hkind ih =>
    cases c with
    | nil => exact List.mem_cons_self
    | cons j c =>
      obtain ⟨i, p, rfl, rfl, hbelow⟩ := cons_mem_above hc
      obtain ⟨child, hchild, hp⟩ := (mem_visits_cons hkind).mp hp
      rw [opensAt_cons hchild] at hopen
      exact (mem_visits_cons hkind).mpr
        ⟨child, hchild, ih child (List.mem_of_getElem? hchild) hp hbelow hopen⟩

theorem mem_visits_of_contourAbove? {node : Node} {p c : Place} (hp : p ∈ node.visits)
    (hc : node.contourAbove? p = some c) : c ∈ node.visits :=
  mem_visits_of_mem_above hp (List.mem_of_find?_eq_some hc) (List.find?_some hc)

end Node

end NameResolution
