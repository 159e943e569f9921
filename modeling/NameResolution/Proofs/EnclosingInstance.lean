import NameResolution.Proofs.Checks
import NameResolution.Scope.Builder
import NameResolution.Syntax.Build

/-!
# No enclosing instance survives

The output language cannot reach an enclosing instance, so a file that uses one does not resolve.
`innermostInstance_of_resolveFile` says so of every node of the tree, visited or not: what is
recorded comes from an ordinary scope, no name and no call without a receiver is found through an
enclosing instance, and `Outer.this` stands for the innermost one.
-/

namespace NameResolution

/-- The node selects a field of `outer.this`, however many fields are in between, or it calls a
method on it. -/
def Node.SelectsFromThis (node : Node) (outer : String) : Prop :=
  node.leftmost?.map Node.kind = some (.this (some outer)) ∨
    (∃ name, node.kind = .methodCall name true) ∧
      node.children.head?.map Node.kind = some (.this (some outer))

theorem Origin.eq_scope_of_isEnclosing {origin : Origin} (h : origin.isEnclosing = false) :
    ∃ name, origin = .scope name := by
  cases origin with
  | scope name => exact ⟨name, rfl⟩
  | enclosing => cases h

theorem Origin.ne_enclosing_of_isEnclosing {origin : Origin} (h : origin.isEnclosing = false) :
    origin ≠ .enclosing := by
  rintro rfl
  cases h

namespace Context

variable {ctx : Context} {root node : Node} {p : Place} {scope : ScopeId}

/-! ## The nodes of the tree -/

theorem Reached.identifier (h : ctx.Reached root p node scope) {ident : String}
    (hkind : node.kind = .name ident) {q : QualifiedName .identifier}
    (hq : ctx.scopes.resolveIdentifier scope ident = some q) : q.isEnclosing = false := by
  cases h with
  | visited hdenotes =>
    rw [Context.denotes, hkind] at hdenotes
    exact (identifier_eq_ok_iff.mp hdenotes).1 q hq
  | onChain hchain hdenotes =>
    -- the name is the leftmost qualifier of a field access, which looks it up first
    have hnone : node.qualifier? = none :=
      Node.qualifier?_eq_none_of_isFieldAccess_eq_false (by rw [hkind]; rfl)
    have hleft := hchain.leftmost?_eq
    rw [hchain.chainEnd_eq, Node.chainEnd_of_qualifier?_eq_none hnone] at hleft
    rw [denotes_eq_fieldAccess hleft, fieldAccess_of_name (by rw [hleft, Option.map_some, hkind])]
      at hdenotes
    rcases namedAccess_eq_ok hdenotes with ⟨-, hident⟩ | ⟨hnone, -⟩
    · exact (identifier_eq_ok_iff.mp hident).1 q hq
    · cases hnone.symm.trans hq

theorem Reached.calledMethod (h : ctx.Reached root p node scope) {name : String}
    (hkind : node.kind = .methodCall name false) {q : QualifiedName .method}
    (hq : ctx.scopes.resolveMethod scope name = some q) : q.isEnclosing = false := by
  obtain ⟨occurrence, hdenotes⟩ := h.denotes (by rw [hkind]; rfl) (by rw [hkind]; rfl)
  rw [Context.denotes, hkind] at hdenotes
  exact (calledMethod_eq_ok_iff.mp hdenotes).1 q hq

theorem Reached.outerThis (h : ctx.Reached root p node scope) {outer : String}
    (hthis : node.SelectsFromThis outer) : ctx.isOuterInstance? scope outer ≠ some true := by
  rcases hthis with hleft | ⟨⟨name, hkind⟩, hreceiver⟩
  · obtain ⟨value, hvalue, hkind⟩ := Option.map_eq_some_iff.mp hleft
    obtain ⟨access, occurrence, haccess, hok⟩ := h.fieldAccess hvalue
    rw [fieldAccess_of_outerThis (by rw [haccess, Option.map_some, hkind])] at hok
    exact (outerAccess_eq_ok hok).1
  · obtain ⟨occurrence, hdenotes⟩ := h.denotes (by rw [hkind]; rfl) (by rw [hkind]; rfl)
    rw [Context.denotes, hkind] at hdenotes
    obtain ⟨_, hcheck, -⟩ := map_eq_ok_iff.mp hdenotes
    exact checkReceiver_eq_ok_iff.mp hcheck outer hreceiver

/-! ## The tables -/

theorem Passes.isEnclosing (h : ctx.Passes root p) {position : SourcePosition}
    {found : Occurrence} (hfound : ctx.visit root p = .ok (some (position, found))) :
    found.origin.isEnclosing = false := by
  obtain ⟨node, scope, hnode, hscope, ⟨inner, hopen⟩, -⟩ := h
  rw [visit_eq hnode hscope, visitIn_of_ok hopen] at hfound
  obtain ⟨occurrence, hdenotes, hentry⟩ := map_eq_ok_iff.mp hfound
  obtain ⟨found', rfl, hpair⟩ := Option.map_eq_some_iff.mp hentry
  obtain ⟨-, rfl⟩ := Prod.mk.inj hpair
  exact isEnclosing_of_denotes hdenotes

theorem isEnclosing_of_mem_occurrences (hpass : ∀ p, root.Visited p → ctx.Passes root p)
    {entry : SourcePosition × Occurrence} (h : entry ∈ ctx.occurrences root) :
    entry.2.origin.isEnclosing = false := by
  obtain ⟨p, hp, hentry⟩ := List.mem_filterMap.mp h
  have hvisited := Node.mem_visits_iff.mp hp
  obtain ⟨found, hfound⟩ := (hpass p hvisited).visit_eq_ok
  rw [visit] at hfound
  rw [hfound] at hentry
  obtain rfl : found = some entry := hentry
  exact (hpass p hvisited).isEnclosing hfound

end Context

theorem mem_methodEntries {found : List (SourcePosition × Occurrence)}
    {entry : SourcePosition × QualifiedName .method} (h : entry ∈ methodEntries found) :
    (entry.1, .method entry.2) ∈ found := by
  have hentry := List.mem_map_of_mem (f := fun e => (e.1, Occurrence.method e.2)) h
  rw [map_methodEntries] at hentry
  exact (List.mem_filter.mp hentry).1

theorem mem_identifierEntries {found : List (SourcePosition × Occurrence)}
    {entry : SourcePosition × QualifiedName .identifier} (h : entry ∈ identifierEntries found) :
    (entry.1, .identifier entry.2) ∈ found := by
  have hentry := List.mem_map_of_mem (f := fun e => (e.1, Occurrence.identifier e.2)) h
  rw [map_identifierEntries] at hentry
  exact (List.mem_filter.mp hentry).1

/-- **A resolved file stays on the innermost instance.** -/
theorem innermostInstance_of_resolveFile {file : FileId} {root : Node} {scopes : ScopeTree}
    {policy : Policy} {r : Resolution} (hconv : root.FollowsConventions)
    (hok : resolveFile file root scopes policy = .ok r) :
    (∀ entry ∈ r.methods.entries, ∃ name, entry.2.origin = .scope name) ∧
    (∀ entry ∈ r.identifiers.entries, ∃ name, entry.2.origin = .scope name) ∧
    ∀ p node, root.at? p = some node →
      ∃ scope, (⟨file, scopes, policy⟩ : Context).scopeAt? root p = some scope ∧
        (∀ ident, node.kind = .name ident → ∀ q, scopes.resolveIdentifier scope ident = some q →
          q.origin ≠ .enclosing) ∧
        (∀ name, node.kind = .methodCall name false → ∀ q,
          scopes.resolveMethod scope name = some q → q.origin ≠ .enclosing) ∧
        ∀ outer, node.SelectsFromThis outer → ∀ type, scopes.resolveType scope outer = some type →
          scopes.innermostType? scope = some type.name := by
  obtain ⟨hpass, hmethods, hidentifiers⟩ := resolveFile_eq_ok_iff.mp hok
  refine ⟨fun entry hentry => ?_, fun entry hentry => ?_, fun p node hnode => ?_⟩
  · rw [hmethods] at hentry
    have hfound := Context.isEnclosing_of_mem_occurrences hpass (mem_methodEntries hentry)
    exact Origin.eq_scope_of_isEnclosing hfound
  · rw [hidentifiers] at hentry
    have hfound := Context.isEnclosing_of_mem_occurrences hpass (mem_identifierEntries hentry)
    exact Origin.eq_scope_of_isEnclosing hfound
  · obtain ⟨scope, hscope, hreached⟩ := Context.reached hconv hpass hnode
    refine ⟨scope, hscope, fun ident hkind q hq => ?_, fun name hkind q hq => ?_,
      fun outer hthis => ?_⟩
    · exact Origin.ne_enclosing_of_isEnclosing (hreached.identifier hkind hq)
    · exact Origin.ne_enclosing_of_isEnclosing (hreached.calledMethod hkind hq)
    · exact Context.isOuterInstance?_ne_true_iff.mp (hreached.outerThis hthis)

/-- An inner class with a superclass, which uses its own members by their names and through `this`;
the class around it has a field. -/
def innerClassScopes : ScopeTree :=
  .build
    [.enter .compilationUnit "unit", .enterMembers "Outer" "a.Outer", .declareField "count" false,
      .declareType "Inner" "a.Outer.Inner", .enterInherited "Inner" "a.Outer.Inner",
      .enterMembers "Inner" "a.Outer.Inner", .declareField "total" false,
      .declareMethod "run" false, .enter .callable "run"]

def innerClass : Node :=
  .compilationUnit
    [.classDecl ⟨1, 0⟩ "Outer" false
      [.classDecl ⟨2, 0⟩ "Inner" true
        [.methodDecl ⟨3, 0⟩ "run"
          [.simpleName ⟨4, 0⟩ "total",
            .fieldOf ⟨5, 0⟩ (.thisRef ⟨5, 0⟩ (some "Inner")) "total",
            .call ⟨6, 0⟩ "run" [],
            .callOn ⟨7, 0⟩ (.thisRef ⟨7, 0⟩ (some "Inner")) "run" []]]]]

theorem innermostInstance_innerClass :
    ∃ r, resolveFile ⟨0⟩ innerClass innerClassScopes .default = .ok r ∧
      (∀ entry ∈ r.methods.entries, ∃ name, entry.2.origin = .scope name) ∧
      (∀ entry ∈ r.identifiers.entries, ∃ name, entry.2.origin = .scope name) ∧
      ∃ scope, (⟨⟨0⟩, innerClassScopes, .default⟩ : Context).scopeAt? innerClass [0, 0, 0, 1] =
          some scope ∧
        ∀ type, innerClassScopes.resolveType scope "Inner" = some type →
          innerClassScopes.innermostType? scope = some type.name := by
  have hconv : innerClass.FollowsConventions := by
    simp [innerClass, Node.compilationUnit, Node.classDecl, Node.methodDecl, Node.simpleName,
      Node.fieldOf, Node.thisRef, Node.call, Node.callOn, Node.followsConventions_mk,
      NodeKind.startsPath, NodeKind.isFieldAccess]
  obtain ⟨r, hr⟩ : ∃ r, resolveFile ⟨0⟩ innerClass innerClassScopes .default = .ok r :=
    exists_eq_ok_of_isSome (by decide +kernel)
  obtain ⟨hmethods, hidentifiers, hnodes⟩ := innermostInstance_of_resolveFile hconv hr
  obtain ⟨scope, hscope, -, -, hthis⟩ := hnodes [0, 0, 0, 1] _ rfl
  exact ⟨r, hr, hmethods, hidentifiers, scope, hscope, hthis "Inner" (.inl rfl)⟩

end NameResolution
