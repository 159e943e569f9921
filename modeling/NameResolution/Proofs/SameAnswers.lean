import NameResolution.Proofs.NearestDeclaration

/-!
# Scopes that answer alike

A lookup sees of the scopes around it only their names, their owners and what they declare under the
name that is asked for, and nothing behind the first scope that declares it (`SeenAlike`). So two
chains of scopes that agree on these give the same answers (`lookup_congr`,
`resolveOwnField_congr`), whatever the numbers of the scopes are and whatever else the trees hold.
`SameAnswers` says it of all lookups from two scopes.
-/

namespace NameResolution

/-- The scopes look the same to a lookup of `name` in the table of `kind`. -/
structure Scope.AlikeFor (kind : NameType) (name : String) (scope scope' : Scope) : Prop where
  name_eq : scope.name = scope'.name
  owner_eq : scope.owner = scope'.owner
  find?_eq : scope.find? kind name = scope'.find? kind name

theorem Scope.AlikeFor.refl (kind : NameType) (name : String) (scope : Scope) :
    Scope.AlikeFor kind name scope scope := ⟨rfl, rfl, rfl⟩

namespace ScopeTree

/-- Scopes stand in the same order on two chains, seen by a lookup of `name`. -/
def ChainsAlike (kind : NameType) (name : String) (chain chain' : List (ScopeId × Scope)) : Prop :=
  List.Forall₂ (fun entry entry' => Scope.AlikeFor kind name entry.2 entry'.2) chain chain'

/-- The chains are alike as far as a lookup of `name` goes: to the first scope that declares it. -/
inductive SeenAlike (kind : NameType) (name : String) :
    List (ScopeId × Scope) → List (ScopeId × Scope) → Prop where
  | nil : SeenAlike kind name [] []
  | cons {entry entry' : ScopeId × Scope} {chain chain' : List (ScopeId × Scope)}
      (hentry : Scope.AlikeFor kind name entry.2 entry'.2)
      (hrest : SeenAlike kind name chain chain') :
      SeenAlike kind name (entry :: chain) (entry' :: chain')
  | found {entry entry' : ScopeId × Scope} {chain chain' : List (ScopeId × Scope)}
      (hentry : Scope.AlikeFor kind name entry.2 entry'.2)
      (hfound : entry.2.find? kind name ≠ none) :
      SeenAlike kind name (entry :: chain) (entry' :: chain')

/-- The field that the nearest of some scopes of a type declares. -/
def nearestField (field : String) (own : List (ScopeId × Scope)) :
    Option (QualifiedName .identifier) :=
  own.findSome? fun entry =>
    (entry.2.find? .identifier field).map fun d => ⟨d.qualified, .scope entry.2.name⟩

/-- Every lookup from the scope `s` gets the answer that it gets from the scope `s'` of the other
tree. -/
structure SameAnswers (tree tree' : ScopeTree) (s s' : ScopeId) : Prop where
  method : ∀ name, tree.resolveMethod s name = tree'.resolveMethod s' name
  identifier : ∀ name, tree.resolveIdentifier s name = tree'.resolveIdentifier s' name
  type : ∀ name, tree.resolveType s name = tree'.resolveType s' name
  innermostType?_eq : tree.innermostType? s = tree'.innermostType? s'

variable {tree tree' : ScopeTree} {s s' : ScopeId} {kind : NameType} {name : String}
  {chain chain' : List (ScopeId × Scope)}

theorem SameAnswers.refl (tree : ScopeTree) (s : ScopeId) : tree.SameAnswers tree s s :=
  ⟨fun _ => rfl, fun _ => rfl, fun _ => rfl, rfl⟩

theorem SameAnswers.trans {tree₁ tree₂ tree₃ : ScopeTree} {s₁ s₂ s₃ : ScopeId}
    (h : tree₁.SameAnswers tree₂ s₁ s₂) (h' : tree₂.SameAnswers tree₃ s₂ s₃) :
    tree₁.SameAnswers tree₃ s₁ s₃ where
  method := fun name => (h.method name).trans (h'.method name)
  identifier := fun name => (h.identifier name).trans (h'.identifier name)
  type := fun name => (h.type name).trans (h'.type name)
  innermostType?_eq := h.innermostType?_eq.trans h'.innermostType?_eq

theorem ChainsAlike.seenAlike (h : ChainsAlike kind name chain chain') :
    SeenAlike kind name chain chain' := by
  induction h with
  | nil => exact .nil
  | cons hentry _ ih => exact .cons hentry ih

theorem SeenAlike.searchOutward_eq (h : SeenAlike kind name chain chain')
    (innermost : Option String) :
    searchOutward kind name innermost chain = searchOutward kind name innermost chain' := by
  induction h generalizing innermost with
  | nil => rfl
  | cons hentry _ ih =>
    rw [searchOutward, searchOutward]
    simp only [hentry.name_eq, hentry.owner_eq, hentry.find?_eq, ih]
  | @found entry entry' _ _ hentry hfound =>
    obtain ⟨d, hd⟩ := Option.ne_none_iff_exists'.mp hfound
    have hd' : entry'.2.find? kind name = some d := by rw [← hentry.find?_eq, hd]
    rw [searchOutward, searchOutward]
    simp only [hentry.name_eq, hentry.owner_eq, hd, hd']

theorem SeenAlike.nearestField_eq {field : String} (h : SeenAlike .identifier field chain chain') :
    nearestField field chain = nearestField field chain' := by
  rw [nearestField, nearestField]
  induction h with
  | nil => rfl
  | cons hentry _ ih =>
    rw [List.findSome?_cons, List.findSome?_cons]
    simp only [hentry.name_eq, hentry.find?_eq, ih]
  | @found entry entry' _ _ hentry hfound =>
    obtain ⟨d, hd⟩ := Option.ne_none_iff_exists'.mp hfound
    have hd' : entry'.2.find? .identifier field = some d := by rw [← hentry.find?_eq, hd]
    rw [List.findSome?_cons, List.findSome?_cons]
    simp only [hentry.name_eq, hd, hd', Option.map_some]

theorem lookup_congr (h : ChainsAlike kind name (tree.ancestors s) (tree'.ancestors s')) :
    tree.lookup s kind name = tree'.lookup s' kind name :=
  h.seenAlike.searchOutward_eq none

theorem ChainsAlike.findSome?_owner (h : ChainsAlike kind name chain chain') :
    chain.findSome? (·.2.owner) = chain'.findSome? (·.2.owner) := by
  induction h with
  | nil => rfl
  | cons hentry _ ih => rw [List.findSome?_cons, List.findSome?_cons, hentry.owner_eq, ih]

theorem innermostType?_congr (h : ChainsAlike kind name (tree.ancestors s) (tree'.ancestors s')) :
    tree.innermostType? s = tree'.innermostType? s' :=
  h.findSome?_owner

theorem ChainsAlike.dropWhile (h : ChainsAlike kind name chain chain') (p : Option String → Bool) :
    ChainsAlike kind name (chain.dropWhile (p ·.2.owner)) (chain'.dropWhile (p ·.2.owner)) := by
  induction h with
  | nil => exact .nil
  | cons hentry hrest ih =>
    rw [List.dropWhile_cons, List.dropWhile_cons, hentry.owner_eq]
    split
    · exact ih
    · exact .cons hentry hrest

theorem ChainsAlike.takeWhile (h : ChainsAlike kind name chain chain') (p : Option String → Bool) :
    ChainsAlike kind name (chain.takeWhile (p ·.2.owner)) (chain'.takeWhile (p ·.2.owner)) := by
  induction h with
  | nil => exact .nil
  | cons hentry hrest ih =>
    rw [List.takeWhile_cons, List.takeWhile_cons, hentry.owner_eq]
    split
    · exact .cons hentry ih
    · exact .nil

theorem ChainsAlike.ownScopes
    (h : ChainsAlike kind name (tree.ancestors s) (tree'.ancestors s')) :
    ChainsAlike kind name (tree.ownScopes s) (tree'.ownScopes s') := by
  rw [ScopeTree.ownScopes, ScopeTree.ownScopes, innermostType?_congr h]
  cases tree'.innermostType? s' with
  | none => exact .nil
  | some owner => exact (h.dropWhile Option.isNone).takeWhile (· == some owner)

theorem resolveOwnField_congr {member : String}
    (h : ChainsAlike .identifier (Dotted.firstSegment member) (tree.ancestors s)
      (tree'.ancestors s')) :
    tree.resolveOwnField s member = tree'.resolveOwnField s' member :=
  h.ownScopes.seenAlike.nearestField_eq

/-- Chains that agree on every name answer every lookup alike. -/
theorem sameAnswers_of_chainsAlike
    (h : ∀ kind name, ChainsAlike kind name (tree.ancestors s) (tree'.ancestors s')) :
    tree.SameAnswers tree' s s' where
  method := fun name => lookup_congr (h .method name)
  identifier := by
    intro name
    rw [resolveIdentifier, resolveIdentifier]
    cases Dotted.stripStart "this." name with
    | none => exact lookup_congr (h .identifier name)
    | some member => exact resolveOwnField_congr (h .identifier _)
  type := fun name => lookup_congr (h .type name)
  innermostType?_eq := innermostType?_congr (h .type "")

end ScopeTree

end NameResolution
