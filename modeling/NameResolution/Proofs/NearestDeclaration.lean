import Mathlib.Data.List.Infix
import NameResolution.Proofs.DottedNames
import NameResolution.Scope.Builder
import NameResolution.Scope.Lookup

/-!
# The nearest declaration wins

`ScopeTree.Encloses` counts the steps from a scope to its parent, and so on outward. A lookup finds
nothing where no enclosing scope declares the name; otherwise it gives the declaration of the
nearest that does (`lookup_answers`). Whether that takes an enclosing instance is a matter of the
innermost type around the scope where the lookup starts, although the lookup only knows the owners
of the scopes it has passed (`innermostType?_of_or_owner`).
-/

namespace NameResolution

namespace ScopeTree

/-- `distance` steps from a scope to its parent lead from `id` to the scope numbered `s`. -/
inductive Encloses (tree : ScopeTree) (id : ScopeId) : Nat → ScopeId → Scope → Prop where
  | self {scope : Scope} (hget : tree.get? id = some scope) : Encloses tree id 0 id scope
  | parent {distance : Nat} {s p : ScopeId} {scope outer : Scope}
      (hinner : Encloses tree id distance s scope) (hparent : scope.parent = some p)
      (hget : tree.get? p = some outer) : Encloses tree id (distance + 1) p outer

/-- The scope at a distance declares a name, and no nearer one does. -/
structure DeclaresNearest (tree : ScopeTree) (id : ScopeId) (kind : NameType) (name : String)
    (scope : Scope) (d : Declaration) : Prop where
  find?_eq : scope.find? kind name = some d
  nearest : ∃ distance s, tree.Encloses id distance s scope ∧
    ∀ nearer < distance, ∀ s' scope', tree.Encloses id nearer s' scope' →
      scope'.find? kind name = none

/-- Where a declaration counts as found, seen from `id`: behind an enclosing instance if it is a
non-static field or method of another type than the innermost one around `id`. -/
def originFrom (tree : ScopeTree) (id : ScopeId) (scope : Scope) (d : Declaration) : Origin :=
  if scope.owner ≠ none ∧ scope.owner ≠ tree.innermostType? id ∧
      (d.kind = .field ∨ d.kind = .method) ∧ d.isStatic = false then
    .enclosing
  else .scope scope.name

/-- The answer is what the nearest declaration around `id` makes it, none where there is none. -/
def AnswersNearest (tree : ScopeTree) (id : ScopeId) (kind : NameType) (name : String)
    (answer : Option (QualifiedName kind)) : Prop :=
  (answer = none ↔ ∀ distance s scope, tree.Encloses id distance s scope →
    scope.find? kind name = none) ∧
  ∀ q, answer = some q ↔ ∃ scope d, tree.DeclaresNearest id kind name scope d ∧
    q = ⟨d.qualified, tree.originFrom id scope d⟩

variable {tree : ScopeTree} {id s : ScopeId} {scope : Scope} {distance : Nat}

/-! ## The chain of parents -/

theorem getElem?_ancestors_zero (tree : ScopeTree) (id : ScopeId) :
    (tree.ancestors id)[0]? = (tree.get? id).map (id, ·) := by
  induction id using tree.ancestors_induction with
  | unknown id hget hchain => rw [hchain, hget]; rfl
  | top id scope hget hparent hchain => rw [hchain, hget]; rfl
  | inner id scope p hget hparent hchain ih => rw [hchain, hget]; rfl

/-- What follows a scope on the chain is its parent. -/
theorem getElem?_ancestors_succ (h : (tree.ancestors id)[distance]? = some (s, scope)) :
    (tree.ancestors id)[distance + 1]? =
      scope.parent.bind fun p => (tree.get? p).map (p, ·) := by
  induction id using tree.ancestors_induction generalizing distance with
  | unknown id hget hchain => simp [hchain] at h
  | top id first hget hparent hchain =>
    rw [hchain] at h ⊢
    cases distance with
    | zero =>
      obtain ⟨-, rfl⟩ := Prod.mk.inj (Option.some.inj h)
      rw [hparent]
      rfl
    | succ distance => cases h
  | inner id first p hget hparent hchain ih =>
    rw [hchain] at h ⊢
    cases distance with
    | zero =>
      obtain ⟨-, rfl⟩ := Prod.mk.inj (Option.some.inj h)
      rw [hparent, List.getElem?_cons_succ, getElem?_ancestors_zero]
      rfl
    | succ distance => exact ih h

theorem getElem?_ancestors_eq_some_iff :
    (tree.ancestors id)[distance]? = some (s, scope) ↔ tree.Encloses id distance s scope := by
  constructor
  · intro h
    induction distance generalizing s scope with
    | zero =>
      rw [getElem?_ancestors_zero] at h
      obtain ⟨found, hget, heq⟩ := Option.map_eq_some_iff.mp h
      obtain ⟨rfl, rfl⟩ := Prod.mk.inj heq
      exact .self hget
    | succ distance ih =>
      have hlt : distance < (tree.ancestors id).length :=
        Nat.lt_of_succ_lt (List.getElem?_eq_some_iff.mp h).1
      have hinner := List.getElem?_eq_getElem hlt
      rw [getElem?_ancestors_succ hinner] at h
      obtain ⟨p, hparent, houter⟩ := Option.bind_eq_some_iff.mp h
      obtain ⟨outer, hget, heq⟩ := Option.map_eq_some_iff.mp houter
      obtain ⟨rfl, rfl⟩ := Prod.mk.inj heq
      exact .parent (ih hinner) hparent hget
  · intro h
    induction h with
    | self hget => rw [getElem?_ancestors_zero, hget]; rfl
    | parent _ hparent hget ih =>
      rw [getElem?_ancestors_succ ih, hparent, Option.bind_some, hget]; rfl

/-! ## The owners that a lookup has passed -/

/-- The owner that a lookup keeps in mind after it has passed scopes: the first it met. -/
def ownerPassed (innermost : Option String) (passed : List (ScopeId × Scope)) : Option String :=
  passed.foldl (fun innermost entry => innermost.or entry.2.owner) innermost

theorem ownerPassed_eq_or (innermost : Option String) (passed : List (ScopeId × Scope)) :
    ownerPassed innermost passed = innermost.or (passed.findSome? (·.2.owner)) := by
  induction passed generalizing innermost with
  | nil => cases innermost <;> rfl
  | cons entry passed ih =>
    rw [ownerPassed, List.foldl_cons, ← ownerPassed, ih, Option.or_assoc, List.findSome?_cons]
    cases entry.2.owner <;> rfl

/-- The first owner on the chain is the innermost type around its start. -/
theorem innermostType?_of_ownerPassed {passed outer : List (ScopeId × Scope)} {owner : String}
    (hchain : tree.ancestors id = passed ++ outer)
    (hpassed : ownerPassed none passed = some owner) :
    tree.innermostType? id = some owner := by
  rw [ownerPassed_eq_or, Option.none_or] at hpassed
  rw [innermostType?, hchain, List.findSome?_append, hpassed, Option.some_or]

/-- What a lookup keeps in mind while it looks at a scope, the owner of that scope included. -/
theorem innermostType?_of_or_owner {passed outer : List (ScopeId × Scope)} {owner : String}
    (hchain : tree.ancestors id = passed ++ (s, scope) :: outer)
    (htracked : (ownerPassed none passed).or scope.owner = some owner) :
    tree.innermostType? id = some owner := by
  have hchain' : tree.ancestors id = (passed ++ [(s, scope)]) ++ outer := by
    rw [hchain, List.append_assoc, List.singleton_append]
  refine innermostType?_of_ownerPassed hchain' ?_
  rw [ownerPassed, List.foldl_append]
  exact htracked

theorem or_owner_of_ancestors {passed outer : List (ScopeId × Scope)}
    (hchain : tree.ancestors id = passed ++ (s, scope) :: outer) (howner : scope.owner ≠ none) :
    (ownerPassed none passed).or scope.owner = tree.innermostType? id := by
  obtain ⟨owner, htracked⟩ : ∃ owner, (ownerPassed none passed).or scope.owner = some owner := by
    refine Option.ne_none_iff_exists'.mp fun hnone => howner ?_
    exact (Option.or_eq_none_iff.mp hnone).2
  rw [htracked, innermostType?_of_or_owner hchain htracked]

/-- Scopes that do not declare the name only leave their owners behind. -/
theorem searchOutward_append {kind : NameType} {name : String} {passed : List (ScopeId × Scope)}
    (hpassed : ∀ entry ∈ passed, entry.2.find? kind name = none) (innermost : Option String)
    (outer : List (ScopeId × Scope)) :
    searchOutward kind name innermost (passed ++ outer) =
      searchOutward kind name (ownerPassed innermost passed) outer := by
  induction passed generalizing innermost with
  | nil => rfl
  | cons entry passed ih =>
    obtain ⟨hentry, hrest⟩ := List.forall_mem_cons.mp hpassed
    rw [List.cons_append, searchOutward]
    simp only [hentry]
    exact ih hrest _

theorem throughInstance_iff {owner innermost : Option String} {d : Declaration} :
    (owner.isSome && owner != innermost && d.needsInstance) = true ↔
      owner ≠ none ∧ owner ≠ innermost ∧ (d.kind = .field ∨ d.kind = .method) ∧
        d.isStatic = false := by
  simp [Declaration.needsInstance, Option.isSome_iff_ne_none, and_assoc]

/-- A lookup stops at the first scope that declares the name. -/
theorem lookup_of_ancestors {kind : NameType} {name : String}
    {passed outer : List (ScopeId × Scope)} {d : Declaration}
    (hchain : tree.ancestors id = passed ++ (s, scope) :: outer)
    (hpassed : ∀ entry ∈ passed, entry.2.find? kind name = none)
    (hfind : scope.find? kind name = some d) :
    tree.lookup id kind name = some ⟨d.qualified, tree.originFrom id scope d⟩ := by
  rw [lookup, hchain, searchOutward_append hpassed, searchOutward]
  simp only [hfind, Option.some.injEq, QualifiedName.mk.injEq, true_and, originFrom]
  by_cases howner : scope.owner = none
  · simp [howner]
  · -- the owner of this scope is passed too, so the lookup knows the innermost type
    have hpass := or_owner_of_ancestors hchain howner
    simp only [hpass, throughInstance_iff]

theorem lookup_eq_none_of {kind : NameType} {name : String}
    (h : ∀ entry ∈ tree.ancestors id, entry.2.find? kind name = none) :
    tree.lookup id kind name = none := by
  rw [lookup, ← List.append_nil (tree.ancestors id), searchOutward_append h]
  rfl

/-! ## What a lookup answers -/

/-- A nearest declaration is where the chain of parents splits. -/
theorem declaresNearest_iff {kind : NameType} {name : String} {d : Declaration} :
    tree.DeclaresNearest id kind name scope d ↔ scope.find? kind name = some d ∧
      ∃ passed s outer, tree.ancestors id = passed ++ (s, scope) :: outer ∧
        ∀ entry ∈ passed, entry.2.find? kind name = none := by
  constructor
  · rintro ⟨hfind, distance, s, hencloses, hnearest⟩
    obtain ⟨hlt, hat⟩ :=
      List.getElem?_eq_some_iff.mp (getElem?_ancestors_eq_some_iff.mpr hencloses)
    refine ⟨hfind, (tree.ancestors id).take distance, s, (tree.ancestors id).drop (distance + 1),
      ?_, ?_⟩
    · rw [← hat, List.getElem_cons_drop, List.take_append_drop]
    · rintro ⟨s', scope'⟩ hentry
      obtain ⟨nearer, hnearer, hat'⟩ := List.mem_take_iff_getElem.mp hentry
      refine hnearest nearer (Nat.lt_of_lt_of_le hnearer (Nat.min_le_left ..)) s' scope' ?_
      exact getElem?_ancestors_eq_some_iff.mp (List.getElem?_eq_some_iff.mpr ⟨_, hat'⟩)
  · rintro ⟨hfind, passed, s, outer, hchain, hpassed⟩
    refine ⟨hfind, passed.length, s, ?_, ?_⟩
    · rw [← getElem?_ancestors_eq_some_iff, hchain, List.getElem?_append_right (Nat.le_refl _),
        Nat.sub_self]
      rfl
    · intro nearer hnearer s' scope' hencloses
      rw [← getElem?_ancestors_eq_some_iff, hchain, List.getElem?_append_left hnearer] at hencloses
      exact hpassed _ (List.mem_of_getElem? hencloses)

theorem mem_ancestors_iff :
    (s, scope) ∈ tree.ancestors id ↔ ∃ distance, tree.Encloses id distance s scope := by
  simp only [List.mem_iff_getElem?, getElem?_ancestors_eq_some_iff]

/-- Either no scope on the chain declares a name, or one is the first that does. -/
theorem exists_declaresNearest {kind : NameType} {name : String}
    (h : ∃ entry ∈ tree.ancestors id, entry.2.find? kind name ≠ none) :
    ∃ scope d, tree.DeclaresNearest id kind name scope d := by
  obtain ⟨entry, hentry, hfound⟩ := h
  obtain ⟨⟨s, scope⟩, hfind⟩ : ∃ first,
      (tree.ancestors id).find? (fun entry => (entry.2.find? kind name).isSome) = some first := by
    refine Option.isSome_iff_exists.mp (List.find?_isSome.mpr ⟨entry, hentry, ?_⟩)
    exact Option.isSome_iff_ne_none.mpr hfound
  obtain ⟨hsome, passed, outer, hchain, hpassed⟩ := List.find?_eq_some_iff_append.mp hfind
  obtain ⟨d, hd⟩ := Option.isSome_iff_exists.mp hsome
  refine ⟨scope, d, declaresNearest_iff.mpr ⟨hd, passed, s, outer, hchain, fun entry hentry => ?_⟩⟩
  simpa using hpassed entry hentry

theorem lookup_answers (tree : ScopeTree) (id : ScopeId) (kind : NameType) (name : String) :
    tree.AnswersNearest id kind name (tree.lookup id kind name) := by
  have hsome {scope : Scope} {d : Declaration} (h : tree.DeclaresNearest id kind name scope d) :
      tree.lookup id kind name = some ⟨d.qualified, tree.originFrom id scope d⟩ := by
    obtain ⟨hfind, passed, s, outer, hchain, hpassed⟩ := declaresNearest_iff.mp h
    exact lookup_of_ancestors hchain hpassed hfind
  by_cases h : ∃ entry ∈ tree.ancestors id, entry.2.find? kind name ≠ none
  · obtain ⟨scope, d, hnearest⟩ := exists_declaresNearest h
    rw [hsome hnearest]
    refine ⟨⟨nofun, fun hnone => ?_⟩, fun q => ⟨?_, ?_⟩⟩
    · obtain ⟨distance, s, hencloses, -⟩ := hnearest.nearest
      cases hnearest.find?_eq.symm.trans (hnone distance s scope hencloses)
    · rintro ⟨⟩
      exact ⟨scope, d, hnearest, rfl⟩
    · rintro ⟨scope', d', hnearest', rfl⟩
      rw [← hsome hnearest, hsome hnearest']
  · have hnone : ∀ entry ∈ tree.ancestors id, entry.2.find? kind name = none := by
      intro entry hentry
      exact Classical.byContradiction fun hne => h ⟨entry, hentry, hne⟩
    rw [lookup_eq_none_of hnone]
    refine ⟨⟨fun _ distance s scope hencloses => ?_, fun _ => rfl⟩, fun q => ⟨nofun, ?_⟩⟩
    · exact hnone (s, scope) (mem_ancestors_iff.mpr ⟨distance, hencloses⟩)
    · rintro ⟨scope, d, hnearest, -⟩
      obtain ⟨hfind, passed, s, outer, hchain, -⟩ := declaresNearest_iff.mp hnearest
      cases hfind.symm.trans (hnone (s, scope) (by simp [hchain]))

theorem resolveIdentifier_eq_lookup {name : String} (h : ¬ "this.".toList <+: name.toList) :
    tree.resolveIdentifier id name = tree.lookup id .identifier name := by
  have hstrip : Dotted.stripStart "this." name = none := by
    refine Dotted.stripStart_eq_none_iff.mpr fun rest hrest => h ⟨rest.toList, ?_⟩
    rw [hrest, String.toList_append]
  rw [resolveIdentifier, hstrip]

/-- **The nearest declaration wins.** Each of the three lookups answers what the nearest declaration
around `id` makes it. At every scope that a lookup reaches, the owner it has in mind can only be the
innermost type around `id`, and at a type scope it is. -/
theorem resolve_nearestDeclaration (tree : ScopeTree) (id : ScopeId) :
    (∀ name, ¬ "this.".toList <+: name.toList →
      tree.AnswersNearest id .identifier name (tree.resolveIdentifier id name)) ∧
    (∀ name, tree.AnswersNearest id .method name (tree.resolveMethod id name)) ∧
    (∀ name, tree.AnswersNearest id .type name (tree.resolveType id name)) ∧
    ∀ kind name passed s scope outer, tree.ancestors id = passed ++ (s, scope) :: outer →
      (∀ entry ∈ passed, entry.2.find? kind name = none) →
      let tracked := (ownerPassed none passed).or scope.owner
      tree.lookup id kind name =
          searchOutward kind name (ownerPassed none passed) ((s, scope) :: outer) ∧
        (∀ owner, tracked = some owner → tree.innermostType? id = some owner) ∧
        (scope.owner ≠ none → tracked = tree.innermostType? id) := by
  refine ⟨fun name hname => ?_, fun name => tree.lookup_answers id .method name,
    fun name => tree.lookup_answers id .type name, ?_⟩
  · rw [resolveIdentifier_eq_lookup hname]
    exact tree.lookup_answers id .identifier name
  · intro kind name passed s scope outer hchain hpassed tracked
    refine ⟨?_, fun owner => innermostType?_of_or_owner hchain, or_owner_of_ancestors hchain⟩
    rw [lookup, hchain, searchOutward_append hpassed]

/-- An inner class in a method of an outer one, which has a field and a static field. -/
def localClassScopes : ScopeTree :=
  .build
    [.enterMembers "Outer" "a.Outer", .declareField "count" false, .declareField "total" true,
      .enter .block "run", .declareVariable "count", .enterMembers "Inner" "a.Outer.Inner",
      .declareMethod "step" false, .enter .block "body"]

theorem nearestDeclaration_localClass :
    ¬ "this.".toList <+: "count".toList ∧
      localClassScopes.AnswersNearest 4 .identifier "count"
        (localClassScopes.resolveIdentifier 4 "count") ∧
      localClassScopes.innermostType? 4 = some "a.Outer.Inner" := by
  have hthis : ¬ "this.".toList <+: "count".toList := by decide
  obtain ⟨hidentifier, -, -, htracked⟩ := resolve_nearestDeclaration localClassScopes 4
  obtain ⟨-, hinnermost, -⟩ := htracked .identifier "count"
    ((localClassScopes.ancestors 4).take 1) 3 ⟨"Inner", .members, some 2, [4], some "a.Outer.Inner",
      [⟨"step", "a.Outer.Inner.step", .method, false⟩]⟩
    ((localClassScopes.ancestors 4).drop 2) (by decide +kernel) (by decide +kernel)
  exact ⟨hthis, hidentifier "count" hthis, hinnermost "a.Outer.Inner" (by decide +kernel)⟩

end ScopeTree

end NameResolution
