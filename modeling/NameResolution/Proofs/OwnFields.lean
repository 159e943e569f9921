import Mathlib.Data.List.TakeWhile
import NameResolution.Proofs.DottedNames
import NameResolution.Proofs.SameAnswers

/-!
# Fields of the innermost type

The scopes of the innermost type around a scope follow each other on the way outward (`OwnRun`).
`this.field` means the field of the nearest of them that declares it, and nothing else on the way to
the root counts: neither the scopes inside the type nor those around it. From the first scope of the
type the plain name means the same field (`lookup_of_ownRun`), since a scope of the innermost type
is not behind an instance.
-/

namespace NameResolution

namespace ScopeTree

/-- A lookup of `name` along a chain gets to the scope numbered `c`: none before it declares the
name. -/
def Reached (kind : NameType) (name : String) (c : ScopeId) (scope : Scope)
    (chain : List (ScopeId × Scope)) : Prop :=
  ∃ nearer outer, chain = nearer ++ (c, scope) :: outer ∧
    ∀ entry ∈ nearer, entry.2.find? kind name = none

/-- The scopes of the innermost type around `id`, as far as they follow each other: nearer scopes
belong to no type, and the next one outward does not belong to this type. -/
def OwnRun (tree : ScopeTree) (id : ScopeId) (run : List (ScopeId × Scope)) : Prop :=
  ∃ owner bare beyond, tree.innermostType? id = some owner ∧
    tree.ancestors id = bare ++ run ++ beyond ∧ (∀ entry ∈ bare, entry.2.owner = none) ∧
    run ≠ [] ∧ (∀ entry ∈ run, entry.2.owner = some owner) ∧
    ∀ entry ∈ beyond.head?, entry.2.owner ≠ some owner

variable {tree : ScopeTree} {id : ScopeId} {run : List (ScopeId × Scope)}

/-! ## The scopes of the innermost type -/

theorem OwnRun.ownScopes_eq (h : tree.OwnRun id run) : tree.ownScopes id = run := by
  obtain ⟨owner, bare, beyond, hinnermost, hchain, hbare, hne, hrun, hbeyond⟩ := h
  obtain ⟨first, rest, rfl⟩ := List.exists_cons_of_ne_nil hne
  have hfirst : first.2.owner = some owner := hrun first (by simp)
  have hdrop : (tree.ancestors id).dropWhile (·.2.owner.isNone) = first :: rest ++ beyond := by
    rw [hchain, List.append_assoc, List.dropWhile_append_of_pos (by simpa using hbare),
      List.cons_append, List.dropWhile_cons_of_neg (by simp [hfirst])]
  have hnil : beyond.takeWhile (·.2.owner == some owner) = [] := by
    cases beyond with
    | nil => rfl
    | cons next beyond => exact List.takeWhile_cons_of_neg (by simpa using hbeyond next rfl)
  rw [ownScopes, hinnermost]
  dsimp only
  rw [hdrop, List.takeWhile_append_of_pos (by simpa using hrun), hnil, List.append_nil]

theorem ownRun_ownScopes (h : tree.ownScopes id ≠ []) : tree.OwnRun id (tree.ownScopes id) := by
  cases howner : tree.innermostType? id with
  | none =>
    rw [ownScopes, howner] at h
    exact absurd rfl h
  | some owner =>
    have hown : tree.ownScopes id = ((tree.ancestors id).dropWhile (·.2.owner.isNone)).takeWhile
        (·.2.owner == some owner) := by
      rw [ownScopes, howner]
    refine ⟨owner, (tree.ancestors id).takeWhile (·.2.owner.isNone),
      ((tree.ancestors id).dropWhile (·.2.owner.isNone)).dropWhile (·.2.owner == some owner),
      howner, ?_, ?_, h, ?_, ?_⟩
    · rw [hown, List.append_assoc, List.takeWhile_append_dropWhile,
        List.takeWhile_append_dropWhile]
    · intro entry hentry
      simpa using List.mem_takeWhile_imp hentry
    · intro entry hentry
      rw [hown] at hentry
      simpa using List.mem_takeWhile_imp hentry
    · intro entry hentry
      have hstop := List.head?_dropWhile_not (fun entry : ScopeId × Scope =>
        entry.2.owner == some owner)
        ((tree.ancestors id).dropWhile (·.2.owner.isNone))
      rw [Option.mem_def.mp hentry] at hstop
      simpa using hstop

/-! ## What a field of the type is -/

theorem resolveIdentifier_this (member : String) :
    tree.resolveIdentifier id ("this." ++ member) =
      nearestField (Dotted.firstSegment member) (tree.ownScopes id) := by
  have hstrip : Dotted.stripStart "this." ("this." ++ member) = some member :=
    Dotted.stripStart_eq_some_iff.mpr rfl
  rw [resolveIdentifier, hstrip]
  rfl

theorem nearestField_eq_some_iff {field : String} {own : List (ScopeId × Scope)}
    {q : QualifiedName .identifier} :
    nearestField field own = some q ↔ ∃ c scope d, Reached .identifier field c scope own ∧
      scope.find? .identifier field = some d ∧ q = ⟨d.qualified, .scope scope.name⟩ := by
  rw [nearestField, List.findSome?_eq_some_iff]
  simp only [Option.map_eq_none_iff, Option.map_eq_some_iff]
  constructor
  · rintro ⟨nearer, ⟨c, scope⟩, outer, hown, ⟨d, hfind, rfl⟩, hnearer⟩
    exact ⟨c, scope, d, ⟨nearer, outer, hown, hnearer⟩, hfind, rfl⟩
  · rintro ⟨c, scope, d, ⟨nearer, outer, hown, hnearer⟩, hfind, rfl⟩
    exact ⟨nearer, (c, scope), outer, hown, ⟨d, hfind, rfl⟩, hnearer⟩

theorem nearestField_ne_none_iff {field : String} {own : List (ScopeId × Scope)} :
    nearestField field own ≠ none ↔ ∃ entry ∈ own, entry.2.find? .identifier field ≠ none := by
  rw [nearestField, ne_eq, List.findSome?_eq_none_iff]
  simp

/-! ## The plain name, from the first scope of the type -/

/-- The chain of a scope that is met on the way outward is the rest of the way. -/
theorem ancestors_of_append {bare outer : List (ScopeId × Scope)} {s : ScopeId} {scope : Scope}
    (h : tree.ancestors id = bare ++ (s, scope) :: outer) :
    tree.ancestors s = (s, scope) :: outer := by
  induction id using tree.ancestors_induction generalizing bare with
  | unknown id hget hchain => simp [hchain] at h
  | top id first hget htop hchain =>
    rw [hchain] at h
    cases bare with
    | nil =>
      obtain ⟨rfl, -⟩ := Prod.mk.inj (List.cons.inj h).1
      rw [hchain, h, List.nil_append]
    | cons entry bare => simp at h
  | inner id first p hget hinner hchain ih =>
    rw [hchain] at h
    cases bare with
    | nil =>
      obtain ⟨rfl, -⟩ := Prod.mk.inj (List.cons.inj h).1
      rw [hchain, h, List.nil_append]
    | cons entry bare => exact ih (List.cons.inj h).2

theorem lookup_of_ownRun {field : String} {s c : ScopeId} {first scope : Scope} {d : Declaration}
    {rest : List (ScopeId × Scope)} (hrun : tree.OwnRun id ((s, first) :: rest))
    (hreached : Reached .identifier field c scope ((s, first) :: rest))
    (hfind : scope.find? .identifier field = some d) :
    tree.lookup s .identifier field = some ⟨d.qualified, .scope scope.name⟩ := by
  obtain ⟨owner, bare, beyond, -, hchain, -, -, howner, -⟩ := hrun
  obtain ⟨nearer, outer, hown, hnearer⟩ := hreached
  rw [List.append_assoc, List.cons_append] at hchain
  have hancestors := ancestors_of_append hchain
  have hinnermost : tree.innermostType? s = some owner := by
    rw [innermostType?, hancestors, List.findSome?_cons, howner (s, first) (by simp)]
  have horigin : tree.originFrom s scope d = .scope scope.name := by
    have hscope : scope.owner = some owner := howner (c, scope) (by simp [hown])
    simp [originFrom, hinnermost, hscope]
  have hsplit : tree.ancestors s = nearer ++ (c, scope) :: (outer ++ beyond) := by
    rw [hancestors, ← List.cons_append, hown, List.append_assoc, List.cons_append]
  rw [lookup_of_ancestors hsplit hnearer hfind, horigin]

/-- A single segment does not begin with `this.`. -/
theorem not_this_prefix_firstSegment (member : String) :
    ¬ "this.".toList <+: (Dotted.firstSegment member).toList := by
  rintro ⟨rest, hrest⟩
  refine Dotted.dot_notMem_firstSegment member ?_
  rw [← hrest]
  simp

/-- **`this.field` is a field of the innermost type.** It has an answer when a scope of the
innermost type declares the field, and then it is what the nearest of these scopes declares, never
behind an instance, and the same as the plain name from the first of them. Other scopes and later
segments do not matter: where the scopes of the type declare alike, the answers are the same. -/
theorem resolveIdentifier_this_ownRun (tree : ScopeTree) (id : ScopeId) (member : String) :
    let field := Dotted.firstSegment member
    let answer := tree.resolveIdentifier id ("this." ++ member)
    (answer ≠ none ↔ ∃ run, tree.OwnRun id run ∧
      ∃ entry ∈ run, entry.2.find? .identifier field ≠ none) ∧
    (∀ s first rest, tree.OwnRun id ((s, first) :: rest) → ∀ q,
      (answer = some q ↔ ∃ c scope d, Reached .identifier field c scope ((s, first) :: rest) ∧
        scope.find? .identifier field = some d ∧ q = ⟨d.qualified, .scope scope.name⟩) ∧
      (answer = some q →
        q.isEnclosing = false ∧ tree.resolveIdentifier s field = some q)) ∧
    ∀ (tree' : ScopeTree) id' member' run run', tree.OwnRun id run → tree'.OwnRun id' run' →
      ChainsAlike .identifier field run run' → Dotted.firstSegment member' = field →
      tree'.resolveIdentifier id' ("this." ++ member') = answer := by
  intro field answer
  have hanswer : answer = nearestField field (tree.ownScopes id) := resolveIdentifier_this member
  refine ⟨?_, fun s first rest hrun q => ?_, ?_⟩
  · rw [hanswer, nearestField_ne_none_iff]
    constructor
    · rintro ⟨entry, hentry, hfound⟩
      exact ⟨_, ownRun_ownScopes (List.ne_nil_of_mem hentry), entry, hentry, hfound⟩
    · rintro ⟨run, hrun, hfound⟩
      rwa [hrun.ownScopes_eq]
  · rw [hanswer, hrun.ownScopes_eq, nearestField_eq_some_iff]
    refine ⟨Iff.rfl, ?_⟩
    rintro ⟨c, scope, d, hreached, hfind, rfl⟩
    refine ⟨rfl, ?_⟩
    rw [resolveIdentifier_eq_lookup (not_this_prefix_firstSegment member)]
    exact lookup_of_ownRun hrun hreached hfind
  · intro tree' id' member' run run' hrun hrun' halike hmember
    rw [hanswer, resolveIdentifier_this, hmember, hrun.ownScopes_eq, hrun'.ownScopes_eq]
    exact halike.seenAlike.nearestField_eq.symm

/-- A class in another one, with a field that it inherits and a variable of the same name. -/
def innerClassScopes : ScopeTree :=
  .build
    [.enterMembers "Outer" "a.Outer", .declareField "count" false,
      .enterInherited "Base" "a.Inner", .declareField "size" false,
      .enterMembers "Inner" "a.Inner", .enter .callable "grow", .declareVariable "size"]

theorem ownRun_innerClass :
    let answer := innerClassScopes.resolveIdentifier 4 ("this." ++ "size.digits")
    answer = some ⟨"a.Inner.size", .scope "Base"⟩ ∧
      innerClassScopes.resolveIdentifier 3 (Dotted.firstSegment "size.digits") = answer ∧
      innerClassScopes.resolveIdentifier 3 ("this." ++ "size") = answer ∧
      innerClassScopes.resolveIdentifier 4 ("this." ++ "count") = none := by
  intro answer
  let first : Scope := ⟨"Inner", .members, some 2, [4], some "a.Inner", []⟩
  let base : Scope :=
    ⟨"Base", .inherited, some 1, [3], some "a.Inner", [⟨"size", "a.Inner.size", .field, false⟩]⟩
  have hfirst : Dotted.firstSegment "size.digits" = "size" := by decide +kernel
  have hfirst' : Dotted.firstSegment "size" = "size" := by decide +kernel
  have hrun (id : ScopeId) (h : id = 3 ∨ id = 4) :
      innerClassScopes.OwnRun id [(3, first), (2, base)] := by
    rcases h with rfl | rfl
    · exact ⟨"a.Inner", [], (innerClassScopes.ancestors 3).drop 2, by decide +kernel,
        by decide +kernel, by decide, by decide, by decide, by decide +kernel⟩
    · exact ⟨"a.Inner", (innerClassScopes.ancestors 4).take 1,
        (innerClassScopes.ancestors 4).drop 3, by decide +kernel, by decide +kernel,
        by decide +kernel, by decide, by decide, by decide +kernel⟩
  obtain ⟨-, hown, halike⟩ := resolveIdentifier_this_ownRun innerClassScopes 4 "size.digits"
  obtain ⟨hanswer, hplain⟩ :=
    hown 3 first [(2, base)] (hrun 4 (.inr rfl)) ⟨"a.Inner.size", .scope "Base"⟩
  have hsome : answer = some ⟨"a.Inner.size", .scope "Base"⟩ :=
    hanswer.mpr ⟨2, base, _, ⟨[(3, first)], [], rfl, by rw [hfirst]; decide⟩,
      by rw [hfirst]; rfl, rfl⟩
  refine ⟨hsome, (hplain hsome).2.trans hsome.symm, ?_, ?_⟩
  · have hsame : ChainsAlike .identifier (Dotted.firstSegment "size.digits")
        [(3, first), (2, base)] [(3, first), (2, base)] :=
      .cons (.refl _ _ _) (.cons (.refl _ _ _) .nil)
    exact halike innerClassScopes 3 "size" _ _ (hrun 4 (.inr rfl)) (hrun 3 (.inl rfl)) hsame
      (hfirst'.trans hfirst.symm)
  · -- `Outer` declares `count`, but it is beyond the run.
    obtain ⟨houtside, -⟩ := resolveIdentifier_this_ownRun innerClassScopes 4 "count"
    by_contra hcount
    obtain ⟨run, hrun', hdeclares⟩ := houtside.mp hcount
    have hfield : Dotted.firstSegment "count" = "count" := by decide +kernel
    rw [← hrun'.ownScopes_eq, (hrun 4 (.inr rfl)).ownScopes_eq, hfield] at hdeclares
    revert hdeclares
    decide

end ScopeTree

end NameResolution
