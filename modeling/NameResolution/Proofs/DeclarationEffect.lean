import NameResolution.Proofs.LargerTrees
import NameResolution.Proofs.OwnFields

/-!
# What a declaration changes

A declaration goes to the current scope of a builder. Only lookups that get as far as this scope see
it: those of its name in its table, from the scope itself or from inside it, with no nearer scope
that declares the name (`Reached`). `this.member` sees it under the same condition on the scopes of
the innermost type, which follow each other on the way outward (`OwnRun`). All other lookups are
answered as before, and so are all lookups while scopes are only opened and closed
(`Builder.declare_effect`).
-/

namespace NameResolution

namespace ScopeTree

/-- Declares a name in the scope numbered `c`, seen on a chain. -/
def declareAt (c : ScopeId) (d : Declaration) (entry : ScopeId × Scope) : ScopeId × Scope :=
  if entry.1 = c then (entry.1, entry.2.declare d) else entry

section Entry

variable {c : ScopeId} {d : Declaration} {entry : ScopeId × Scope}

theorem declareAt_of_ne (h : entry.1 ≠ c) : declareAt c d entry = entry := if_neg h

@[simp] theorem declareAt_self (scope : Scope) : declareAt c d (c, scope) = (c, scope.declare d) :=
  if_pos rfl

@[simp] theorem fst_declareAt : (declareAt c d entry).1 = entry.1 := by
  rw [declareAt]
  split <;> rfl

@[simp] theorem owner_declareAt : (declareAt c d entry).2.owner = entry.2.owner := by
  rw [declareAt]
  split <;> rfl

@[simp] theorem parent_declareAt : (declareAt c d entry).2.parent = entry.2.parent := by
  rw [declareAt]
  split <;> rfl

theorem alikeFor_declareAt {kind : NameType} {name : String} (h : ¬ d.answers kind name = true) :
    Scope.AlikeFor kind name entry.2 (declareAt c d entry).2 := by
  rw [declareAt]
  split
  · exact ⟨rfl, rfl, by rw [Scope.find?_declare, if_neg h]⟩
  · exact .refl kind name entry.2

end Entry

end ScopeTree

theorem DeclKind.nameType_eq_identifier_iff {kind : DeclKind} :
    kind.nameType = .identifier ↔ kind = .localVariable ∨ kind = .field := by
  cases kind <;> decide

theorem Scope.find?_declare_self (scope : Scope) (d : Declaration) :
    (scope.declare d).find? d.kind.nameType d.name = some d := by
  rw [find?_declare, if_pos d.answers_self]

/-- A declaration is the only one of its name in its table. -/
theorem Scope.filter_answers_declare (scope : Scope) (d : Declaration) :
    (scope.declare d).declarations.filter (·.answers d.kind.nameType d.name) = [d] := by
  rw [declare, List.filter_cons_of_pos d.answers_self, List.filter_filter]
  simp

namespace ScopeTree

/-! ## On a chain -/

section Chain

variable {c : ScopeId} {d : Declaration} {kind : NameType} {name : String} {scope : Scope}

theorem Reached.cons {entry : ScopeId × Scope} {chain : List (ScopeId × Scope)}
    (hentry : entry.2.find? kind name = none) (h : Reached kind name c scope chain) :
    Reached kind name c scope (entry :: chain) := by
  obtain ⟨nearer, outer, rfl, hnearer⟩ := h
  exact ⟨entry :: nearer, outer, rfl, List.forall_mem_cons.mpr ⟨hentry, hnearer⟩⟩

/-- A lookup that does not get to the declaration sees nothing of it. -/
theorem seenAlike_declareAt (chain : List (ScopeId × Scope))
    (h : ¬ (d.answers kind name = true ∧ ∃ scope, Reached kind name c scope chain)) :
    SeenAlike kind name chain (chain.map (declareAt c d)) := by
  induction chain with
  | nil => exact .nil
  | cons entry chain ih =>
    rw [List.map_cons]
    by_cases hanswers : d.answers kind name = true
    · -- the declaration would be seen at `c`, so the lookup has to stop before it
      have hne : entry.1 ≠ c := by
        rintro rfl
        exact h ⟨hanswers, entry.2, [], chain, rfl, by simp⟩
      rw [declareAt_of_ne hne]
      by_cases hfind : entry.2.find? kind name = none
      · refine .cons (.refl kind name entry.2) (ih ?_)
        rintro ⟨-, scope, hreach⟩
        exact h ⟨hanswers, scope, hreach.cons hfind⟩
      · exact .found (.refl kind name entry.2) hfind
    · exact .cons (alikeFor_declareAt hanswers) (ih fun hreach => hanswers hreach.1)

/-- Scopes have numbers of their own, so what is nearer than the current scope stays. -/
theorem map_declareAt_of_pairwise {nearer outer : List (ScopeId × Scope)}
    (h : ((nearer ++ (c, scope) :: outer).map Prod.fst).Pairwise (· > ·)) :
    (nearer ++ (c, scope) :: outer).map (declareAt c d) =
      nearer ++ (c, scope.declare d) :: outer.map (declareAt c d) := by
  rw [List.map_append, List.pairwise_append] at h
  have hnearer : nearer.map (declareAt c d) = nearer := by
    conv_rhs => rw [← List.map_id nearer]
    refine List.map_congr_left fun entry hentry => declareAt_of_ne ?_
    exact Nat.ne_of_gt (h.2.2 entry.1 (List.mem_map_of_mem hentry) c (by simp))
  rw [List.map_append, hnearer, List.map_cons, declareAt_self]

end Chain

theorem pairwise_ownScopes (tree : ScopeTree) (id : ScopeId) :
    ((tree.ownScopes id).map Prod.fst).Pairwise (· > ·) := by
  have hsublist : (tree.ownScopes id).Sublist (tree.ancestors id) := by
    rw [ownScopes]
    cases tree.innermostType? id with
    | none => exact List.nil_sublist _
    | some owner => exact (List.takeWhile_sublist _).trans (List.dropWhile_sublist _)
  exact (tree.pairwise_ancestors id).sublist (hsublist.map Prod.fst)

/-! ## In a tree -/

namespace Builder

variable (b : Builder) (d : Declaration) (id : ScopeId)

theorem get?_declare {scope : Scope} (h : b.tree.get? id = some scope) :
    (b.declare d).tree.get? id = some (declareAt b.current d (id, scope)).2 := by
  rw [declare, get?_modify, h, declareAt]
  split <;> rfl

/-- The chain to the root is the same, with the declaration in the current scope. -/
theorem ancestors_declare : (b.declare d).tree.ancestors id =
    (b.tree.ancestors id).map (declareAt b.current d) := by
  have hentry (i : ScopeId) (scope : Scope) :
      (i, (declareAt b.current d (i, scope)).2) = declareAt b.current d (i, scope) :=
    Prod.ext (by rw [fst_declareAt]) rfl
  induction id using b.tree.ancestors_induction with
  | unknown i hnone hchain =>
    have hnone' : (b.declare d).tree.get? i = none := by
      rw [get?_eq_none_iff, size_declare, ← get?_eq_none_iff]
      exact hnone
    rw [hchain, ancestors_of_get?_eq_none hnone']
    rfl
  | top i scope hget htop hchain =>
    rw [hchain, ancestors_of_parent_eq_none (b.get?_declare d i hget)
      (parent_declareAt.trans htop), hentry]
    rfl
  | inner i scope p hget hinner hchain ih =>
    rw [hchain, ancestors_of_parent_eq_some (b.get?_declare d i hget)
      (parent_declareAt.trans hinner), ih, hentry]
    rfl

theorem innermostType?_declare :
    (b.declare d).tree.innermostType? id = b.tree.innermostType? id := by
  rw [innermostType?, ancestors_declare, List.findSome?_map, innermostType?]
  congr 1
  funext entry
  exact owner_declareAt

theorem ownScopes_declare : (b.declare d).tree.ownScopes id =
    (b.tree.ownScopes id).map (declareAt b.current d) := by
  have howner (p : Option String → Bool) :
      (fun entry : ScopeId × Scope => p entry.2.owner) ∘ declareAt b.current d =
        fun entry => p entry.2.owner := by
    funext entry
    exact congrArg p owner_declareAt
  rw [ownScopes, innermostType?_declare, ownScopes]
  cases b.tree.innermostType? id with
  | none => rfl
  | some owner =>
    dsimp only
    rw [ancestors_declare, List.dropWhile_map, List.takeWhile_map, howner Option.isNone,
      howner (· == some owner)]

theorem originFrom_declare (scope : Scope) :
    (b.declare d).tree.originFrom id (scope.declare d) d = b.tree.originFrom id scope d := by
  rw [originFrom, originFrom, innermostType?_declare]
  rfl

/-- The declaration is what a lookup finds that gets to it. -/
theorem lookup_declare {scope : Scope} (h : Reached d.kind.nameType d.name b.current scope
      (b.tree.ancestors id)) :
    (b.declare d).tree.lookup id d.kind.nameType d.name =
      some ⟨d.qualified, b.tree.originFrom id scope d⟩ := by
  obtain ⟨nearer, outer, hchain, hnearer⟩ := h
  have hdistinct := b.tree.pairwise_ancestors id
  have hchain' := b.ancestors_declare d id
  rw [hchain] at hdistinct hchain'
  rw [map_declareAt_of_pairwise hdistinct] at hchain'
  rw [lookup_of_ancestors hchain' hnearer (scope.find?_declare_self d), originFrom_declare]

theorem lookup_declare_of_not_reached {kind : NameType} {name : String}
    (h : ¬ (d.answers kind name = true ∧
      ∃ scope, Reached kind name b.current scope (b.tree.ancestors id))) :
    (b.declare d).tree.lookup id kind name = b.tree.lookup id kind name := by
  rw [lookup, ancestors_declare, lookup, (seenAlike_declareAt _ h).searchOutward_eq]

/-- The declaration is what `this.member` means where it gets to it. -/
theorem resolveIdentifier_this_declare {member : String} {scope : Scope}
    {run : List (ScopeId × Scope)} (hkind : d.kind.nameType = .identifier)
    (hname : d.name = Dotted.firstSegment member) (hrun : b.tree.OwnRun id run)
    (h : Reached .identifier d.name b.current scope run) :
    (b.declare d).tree.resolveIdentifier id ("this." ++ member) =
      some ⟨d.qualified, .scope scope.name⟩ := by
  obtain ⟨nearer, outer, rfl, hnearer⟩ := h
  have hdistinct := b.tree.pairwise_ownScopes id
  have hfind := scope.find?_declare_self d
  rw [hrun.ownScopes_eq] at hdistinct
  rw [hname] at hnearer
  rw [hkind, hname] at hfind
  rw [resolveIdentifier_this, ownScopes_declare, hrun.ownScopes_eq,
    map_declareAt_of_pairwise hdistinct]
  exact nearestField_eq_some_iff.mpr
    ⟨b.current, scope.declare d, d, ⟨nearer, _, rfl, hnearer⟩, hfind, rfl⟩

theorem resolveIdentifier_this_declare_of_not_reached {member : String}
    (h : ¬ (d.answers .identifier (Dotted.firstSegment member) = true ∧ ∃ scope,
      Reached .identifier (Dotted.firstSegment member) b.current scope
        (b.tree.ownScopes id))) :
    (b.declare d).tree.resolveIdentifier id ("this." ++ member) =
      b.tree.resolveIdentifier id ("this." ++ member) := by
  rw [resolveIdentifier_this, ownScopes_declare, resolveIdentifier_this,
    (seenAlike_declareAt _ h).nearestField_eq]

/-! ## Opening and closing scopes -/

theorem sameAnswers_step {id : ScopeId} {step : BuildStep}
    (h : step.heading?.isSome = true ∨ step = .exit) (hid : id < b.tree.size) :
    b.tree.SameAnswers (b.step step).tree id id ∧ id < (b.step step).tree.size := by
  rcases b.step_cases step with ⟨name, kind, owner, -, -, hstep⟩ | ⟨hheading, hstep⟩
  · rw [hstep, size_push]
    exact ⟨(PartOf.push b name kind owner).sameAnswers hid, Nat.lt_succ_of_lt hid⟩
  · obtain rfl : step = .exit := h.resolve_left (by simp [hheading])
    exact ⟨.refl b.tree id, hid⟩

/-- Scopes that are opened and closed change no answer in the scopes that are there. -/
theorem sameAnswers_run {id : ScopeId} (steps : List BuildStep)
    (h : ∀ step ∈ steps, step.heading?.isSome = true ∨ step = .exit) (hid : id < b.tree.size) :
    b.tree.SameAnswers (b.run steps).tree id id := by
  induction steps generalizing b with
  | nil => exact .refl b.tree id
  | cons step steps ih =>
    obtain ⟨hstep, hsteps⟩ := List.forall_mem_cons.mp h
    obtain ⟨hsame, hlt⟩ := b.sameAnswers_step hstep hid
    exact hsame.trans (ih (b.step step) hsteps hlt)

/-- **A declaration changes the lookups that get to it, and no others.** The declaration takes the
place of an earlier one; a lookup that gets to it answers it, seen from where the lookup starts; any
other lookup answers what it did before, and so does every lookup while scopes are only opened and
closed. -/
theorem declare_effect (b : Builder) (d : Declaration) :
    (∃ scope, (b.declare d).tree.get? b.current = some scope ∧
      scope.declarations.filter (·.answers d.kind.nameType d.name) = [d]) ∧
    (∀ id scope,
      Reached d.kind.nameType d.name b.current scope (b.tree.ancestors id) →
        (b.declare d).tree.lookup id d.kind.nameType d.name =
          some ⟨d.qualified, b.tree.originFrom id scope d⟩) ∧
    (∀ id kind name,
      ¬ (d.kind.nameType = kind ∧ d.name = name ∧
        ∃ scope, Reached kind name b.current scope (b.tree.ancestors id)) →
      (b.declare d).tree.lookup id kind name = b.tree.lookup id kind name) ∧
    (∀ id member run scope, d.kind = .localVariable ∨ d.kind = .field →
      d.name = Dotted.firstSegment member → b.tree.OwnRun id run →
      Reached .identifier d.name b.current scope run →
        (b.declare d).tree.resolveIdentifier id ("this." ++ member) =
          some ⟨d.qualified, .scope scope.name⟩) ∧
    (∀ id member,
      ¬ ((d.kind = .localVariable ∨ d.kind = .field) ∧ d.name = Dotted.firstSegment member ∧
        ∃ run scope, b.tree.OwnRun id run ∧
          Reached .identifier d.name b.current scope run) →
      (b.declare d).tree.resolveIdentifier id ("this." ++ member) =
        b.tree.resolveIdentifier id ("this." ++ member)) ∧
    ∀ steps, (∀ step ∈ steps, step.heading?.isSome = true ∨ step = .exit) →
      ∀ id < b.tree.size, b.tree.SameAnswers (b.run steps).tree id id := by
  refine ⟨?_, fun id scope => b.lookup_declare d id, ?_, ?_, ?_, ?_⟩
  · obtain ⟨scope, hget⟩ := exists_get?_of_lt b.current_lt
    refine ⟨scope.declare d, ?_, scope.filter_answers_declare d⟩
    rw [declare, get?_modify, if_pos rfl, hget]
    rfl
  · intro id kind name h
    refine b.lookup_declare_of_not_reached d id ?_
    rintro ⟨hanswers, hreached⟩
    obtain ⟨hkind, hname⟩ := Declaration.answers_iff.mp hanswers
    exact h ⟨hkind, hname, hreached⟩
  · intro id member run scope hkind hname hrun hreach
    have htable := DeclKind.nameType_eq_identifier_iff.mpr hkind
    exact b.resolveIdentifier_this_declare d id htable hname hrun hreach
  · intro id member h
    refine b.resolveIdentifier_this_declare_of_not_reached d id ?_
    rintro ⟨hanswers, scope, hreach⟩
    obtain ⟨hkind, hname⟩ := Declaration.answers_iff.mp hanswers
    have hne : b.tree.ownScopes id ≠ [] := by
      obtain ⟨nearer, outer, hown, -⟩ := hreach
      simp [hown]
    rw [← hname] at hreach
    exact h ⟨DeclKind.nameType_eq_identifier_iff.mp hkind, hname, _, scope, ownRun_ownScopes hne,
      hreach⟩
  · intro steps h id hid
    exact b.sameAnswers_run steps h hid

/-- A class with two methods, both closed again; the second has a variable `count`. -/
def counterClass : Builder :=
  start.run
    [.enterMembers "Counter" "a.Counter", .enter .block "step", .exit, .enter .block "reset",
      .declareVariable "count", .exit]

def countField : Declaration := ⟨"count", "a.Counter.count", .field, false⟩

theorem declare_effect_counterClass :
    let tree := counterClass.tree
    let after := (counterClass.declare countField).tree
    after.lookup 2 .identifier "count" = some ⟨"a.Counter.count", .scope "Counter"⟩ ∧
      after.lookup 3 .identifier "count" = tree.lookup 3 .identifier "count" ∧
      after.resolveIdentifier 3 ("this." ++ "count.digits") =
        some ⟨"a.Counter.count", .scope "Counter"⟩ ∧
      after.resolveIdentifier 0 ("this." ++ "count") =
        tree.resolveIdentifier 0 ("this." ++ "count") ∧
      tree.SameAnswers (counterClass.run [.enter .block "late", .exit]).tree 3 3 := by
  obtain ⟨-, hreached, hother, hthis, hotherThis, hopened⟩ := declare_effect counterClass countField
  let members : Scope := ⟨"Counter", .members, some 0, [2, 3], some "a.Counter", []⟩
  refine ⟨?_, ?_, ?_, ?_, ?_⟩
  · have horigin : counterClass.tree.originFrom 2 members countField = .scope "Counter" := by
      decide +kernel
    have hreach : Reached .identifier "count" 1 members (counterClass.tree.ancestors 2) :=
      ⟨(counterClass.tree.ancestors 2).take 1, (counterClass.tree.ancestors 2).drop 2,
        by decide +kernel, by decide +kernel⟩
    rw [← horigin]
    exact hreached 2 members hreach
  · refine hother 3 .identifier "count" ?_
    rintro ⟨-, -, scope, nearer, outer, hchain, hnearer⟩
    have hcurrent : counterClass.current ≠ 3 := by decide
    have hvariable : ∀ entry ∈ (counterClass.tree.ancestors 3).head?,
        entry.1 = 3 ∧ entry.2.find? .identifier "count" ≠ none := by decide +kernel
    rw [hchain] at hvariable
    cases nearer with
    | nil => exact hcurrent (hvariable _ rfl).1
    | cons entry nearer => exact (hvariable entry rfl).2 (hnearer entry (by simp))
  · refine hthis 3 "count.digits" [(1, members)] members (by decide) (by decide +kernel) ?_
      ⟨[], [], rfl, by simp⟩
    exact ⟨"a.Counter", (counterClass.tree.ancestors 3).take 1,
      (counterClass.tree.ancestors 3).drop 2, by decide +kernel, by decide +kernel,
      by decide +kernel, by simp, by decide +kernel, by decide +kernel⟩
  · refine hotherThis 0 "count" ?_
    rintro ⟨-, -, run, scope, ⟨owner, bare, beyond, howner, -⟩, -⟩
    have hnone : counterClass.tree.innermostType? 0 = none := by decide +kernel
    cases hnone.symm.trans howner
  · exact hopened _ (by decide) 3 (by decide +kernel)

end Builder

end ScopeTree

end NameResolution
