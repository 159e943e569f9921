import NameResolution.Proofs.SameAnswers
import NameResolution.Proofs.ScopeArena

/-!
# Larger scope trees

The scopes of a tree are part of a larger one when they stand in it with what they declare, as the
first children of each scope in their order (`ScopeTree.PartOf`). They may have other numbers there,
so a part comes with the map of its numbers. A lookup goes outward only, and outward both trees have
the same scopes: every lookup gets the same answer (`PartOf.sameAnswers`). A builder that opens a
scope makes its tree part of the new one, with no number changed (`PartOf.push`).
-/

namespace NameResolution

/-- One scope stands for another in a larger tree, where `place` gives the new numbers: it is the
same but for its number and for children that come after its own. -/
structure Scope.StandsFor (place : ScopeId → ScopeId) (scope' scope : Scope) : Prop where
  name_eq : scope'.name = scope.name
  kind_eq : scope'.kind = scope.kind
  owner_eq : scope'.owner = scope.owner
  find?_eq : ∀ kind name, scope'.find? kind name = scope.find? kind name
  parent_eq : scope'.parent = scope.parent.map place
  prefix_children : scope.children.map place <+: scope'.children

/-- The scopes of `tree` stand in `tree'` at the numbers that `place` gives them; what else `tree'`
has comes after them in every scope. -/
structure ScopeTree.PartOf (tree tree' : ScopeTree) (place : ScopeId → ScopeId) : Prop where
  place_root : place ScopeTree.root = ScopeTree.root
  exists_standsFor : ∀ {id scope}, tree.get? id = some scope →
    ∃ scope', tree'.get? (place id) = some scope' ∧ scope'.StandsFor place scope

/-- The scope in a larger tree, with more children after its own. -/
def Scope.placed (place : ScopeId → ScopeId) (later : List ScopeId) (scope : Scope) : Scope :=
  { scope with
    parent := scope.parent.map place
    children := scope.children.map place ++ later }

namespace ScopeTree.PartOf

variable {tree tree' : ScopeTree} {place : ScopeId → ScopeId}

theorem of_get? (later : ScopeId → List ScopeId) (hroot : place ScopeTree.root = ScopeTree.root)
    (h : ∀ id < tree.size, tree'.get? (place id) =
      (tree.get? id).map (Scope.placed place (later id))) : tree.PartOf tree' place where
  place_root := hroot
  exists_standsFor := by
    intro id scope hget
    have hplaced := h id (lt_size_of_get? hget)
    rw [hget] at hplaced
    exact ⟨_, hplaced, rfl, rfl, rfl, fun _ _ => rfl, rfl, later id, rfl⟩

/-- Outward from a scope of the part, both trees have the same scopes. -/
theorem chainsAlike (h : tree.PartOf tree' place) (kind : NameType) (name : String) {id : ScopeId}
    (hid : id < tree.size) :
    ChainsAlike kind name (tree.ancestors id) (tree'.ancestors (place id)) := by
  have halike {scope scope' : Scope} (hstands : scope'.StandsFor place scope) :
      Scope.AlikeFor kind name scope scope' :=
    ⟨hstands.name_eq.symm, hstands.owner_eq.symm, (hstands.find?_eq kind name).symm⟩
  induction id using tree.ancestors_induction with
  | unknown id hget => exact absurd (get?_eq_none_iff.mp hget) (Nat.not_le_of_lt hid)
  | top id scope hget hparent hchain =>
    obtain ⟨scope', hget', hstands⟩ := h.exists_standsFor hget
    have hparent' : scope'.parent = none := by
      rw [hstands.parent_eq, hparent]
      rfl
    rw [hchain, ancestors_of_parent_eq_none hget' hparent']
    exact .cons (halike hstands) .nil
  | inner id scope parent hget hparent hchain ih =>
    obtain ⟨scope', hget', hstands⟩ := h.exists_standsFor hget
    have hparent' : scope'.parent = some (place parent) := by
      rw [hstands.parent_eq, hparent]
      rfl
    rw [hchain, ancestors_of_parent_eq_some hget' hparent']
    exact .cons (halike hstands) (ih (Nat.lt_trans (tree.parent_lt hget hparent) hid))

theorem getElem?_children (h : tree.PartOf tree' place) {id child : ScopeId} {index : Nat}
    (hchild : (tree.children id)[index]? = some child) :
    (tree'.children (place id))[index]? = some (place child) := by
  cases hget : tree.get? id with
  | none =>
    rw [children_eq, hget] at hchild
    cases hchild
  | some scope =>
    obtain ⟨scope', hget', hstands⟩ := h.exists_standsFor hget
    obtain ⟨later, hchildren⟩ := hstands.prefix_children
    have hown : scope.children[index]? = some child := by rwa [children_eq, hget] at hchild
    have hplaced : (scope.children.map place)[index]? = some (place child) := by
      rw [List.getElem?_map, hown]
      rfl
    obtain ⟨hindex, -⟩ := List.getElem?_eq_some_iff.mp hplaced
    rw [children_eq, hget', Option.map_some, Option.getD_some, ← hchildren,
      List.getElem?_append_left hindex, hplaced]

theorem sameAnswers (h : tree.PartOf tree' place) {id : ScopeId} (hid : id < tree.size) :
    tree.SameAnswers tree' id (place id) :=
  sameAnswers_of_chainsAlike fun kind name => h.chainsAlike kind name hid

/-- Opening a scope adds a last child to the current one. -/
theorem push (b : Builder) (name : String) (kind : ScopeKind) (owner : Option String) :
    b.tree.PartOf (b.push name kind owner).tree id := by
  refine of_get? (fun i => if i = b.current then [b.tree.size] else []) rfl fun i hi => ?_
  obtain ⟨scope, hget⟩ := exists_get?_of_lt hi
  rw [id_def, Builder.push, get?_addScope, if_neg (Nat.ne_of_lt hi), hget]
  split <;> simp [Scope.placed, Scope.addChild]

end ScopeTree.PartOf

end NameResolution
