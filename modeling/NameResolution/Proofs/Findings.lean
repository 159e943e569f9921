import NameResolution.Proofs.WalkOrder
import NameResolution.Scope.Builder
import NameResolution.Syntax.Build

/-!
# What a file resolves to

The visits of a file find occurrences; recorded one after the other they fill the two tables as
long as no position comes twice in one of them (`Context.foldlM_recordVisit_eq_ok_iff`). So a file
resolves exactly when every visited place passes in its scope and the positions of each kind of
occurrence differ, and then its tables list the occurrences in document order
(`resolveFile_eq_ok_iff`).
-/

namespace NameResolution

/-- The table that an occurrence goes to. -/
def Occurrence.kind : Occurrence → NameType
  | .method _ => .method
  | .identifier _ => .identifier

/-- The method of an occurrence that is a call. -/
def Occurrence.method? : Occurrence → Option (QualifiedName .method)
  | .method name => some name
  | .identifier _ => none

/-- The identifier of an occurrence that is none. -/
def Occurrence.identifier? : Occurrence → Option (QualifiedName .identifier)
  | .method _ => none
  | .identifier name => some name

/-- The calls of a list of occurrences, with their positions. -/
def methodEntries (found : List (SourcePosition × Occurrence)) :
    List (SourcePosition × QualifiedName .method) :=
  found.filterMap fun entry => entry.2.method?.map (entry.1, ·)

/-- The identifiers of a list of occurrences, with their positions. -/
def identifierEntries (found : List (SourcePosition × Occurrence)) :
    List (SourcePosition × QualifiedName .identifier) :=
  found.filterMap fun entry => entry.2.identifier?.map (entry.1, ·)

/-- The occurrences of one kind. -/
def ofKind (kind : NameType) (found : List (SourcePosition × Occurrence)) :
    List (SourcePosition × Occurrence) :=
  found.filter fun entry => entry.2.kind = kind

/-- What is selected from the occurrences of one kind, and nothing else, gives them back. -/
theorem map_filterMap_eq_ofKind {α : Type} {kind : NameType} {select : Occurrence → Option α}
    {embed : α → Occurrence}
    (hselect : ∀ occurrence, (select occurrence).map embed =
      if occurrence.kind = kind then some occurrence else none)
    (found : List (SourcePosition × Occurrence)) :
    (found.filterMap fun entry => (select entry.2).map (entry.1, ·)).map
        (fun entry => (entry.1, embed entry.2)) = ofKind kind found := by
  unfold ofKind
  rw [List.map_filterMap, ← List.filterMap_eq_filter]
  congr 1
  funext ⟨position, occurrence⟩
  have hentry := congrArg (Option.map fun o => (position, o)) (hselect occurrence)
  rw [Option.map_map] at hentry ⊢
  refine hentry.trans ?_
  by_cases hkind : occurrence.kind = kind <;> simp [Option.guard, hkind]

theorem map_methodEntries (found : List (SourcePosition × Occurrence)) :
    (methodEntries found).map (fun entry => (entry.1, Occurrence.method entry.2)) =
      ofKind .method found := by
  apply map_filterMap_eq_ofKind
  intro occurrence
  cases occurrence <;> rfl

theorem map_identifierEntries (found : List (SourcePosition × Occurrence)) :
    (identifierEntries found).map (fun entry => (entry.1, Occurrence.identifier entry.2)) =
      ofKind .identifier found := by
  apply map_filterMap_eq_ofKind
  intro occurrence
  cases occurrence <;> rfl

/-! ## Recording -/

theorem map_eq_ok_iff {ε α β : Type} {x : Except ε α} {f : α → β} {b : β} :
    x.map f = .ok b ↔ ∃ a, x = .ok a ∧ f a = b := by
  cases x <;> simp [Except.map]

theorem map_eq_error_iff {ε α β : Type} {x : Except ε α} {f : α → β} {e : ε} :
    x.map f = .error e ↔ x = .error e := by
  cases x <;> simp [Except.map]

theorem bind_eq_ok_iff {ε α β : Type} {x : Except ε α} {f : α → Except ε β} {b : β} :
    (x >>= f) = .ok b ↔ ∃ a, x = .ok a ∧ f a = .ok b := by
  cases x <;> simp [bind, Except.bind]

theorem exists_eq_ok_of_isSome {ε α : Type} {x : Except ε α} (h : x.toOption.isSome = true) :
    ∃ a, x = .ok a := by
  cases x with
  | ok a => exact ⟨a, rfl⟩
  | error e => cases h

theorem OrderedMap.find?_isNone_of_nodup {κ α : Type} [DecidableEq κ] {m n : OrderedMap κ α}
    {k : κ} {a : α} (h : n.entries = m.entries ++ [(k, a)]) : m.find? k = none := by
  have hnodup := n.nodup_keys
  rw [h, List.map_append, List.nodup_append] at hnodup
  refine (m.find?_eq_none_iff k).mpr fun hk => ?_
  exact hnodup.2.2 k hk k List.mem_cons_self rfl

/-- A beginning of the entries of a map is a map. -/
def OrderedMap.ofPrefix {κ α : Type} (m : OrderedMap κ α) (entries later : List (κ × α))
    (h : m.entries = entries ++ later) : OrderedMap κ α where
  entries := entries
  nodup_keys := by
    have hnodup := m.nodup_keys
    rw [h, List.map_append] at hnodup
    exact (List.nodup_append.mp hnodup).1

theorem NameTable.record_eq_ok_iff {kind : NameType} {table table' : NameTable kind}
    {position : SourcePosition} {name : QualifiedName kind} :
    table.record position name = .ok table' ↔
      table'.entries = table.entries ++ [(position, name)] := by
  constructor
  · intro h
    cases hfind : table.find? position with
    | some existing =>
      rw [record_of_find?_eq_some name hfind] at h
      cases h
    | none =>
      rw [record_of_find?_eq_none name hfind] at h
      obtain rfl := Except.ok.inj h
      exact table.entries_insert_of_not_mem position name ((table.find?_eq_none_iff _).mp hfind)
  · intro h
    have hfind := OrderedMap.find?_isNone_of_nodup h
    rw [record_of_find?_eq_none name hfind]
    refine congrArg Except.ok (OrderedMap.ext ?_)
    rw [table.entries_insert_of_not_mem position name ((table.find?_eq_none_iff _).mp hfind), h]

theorem Resolution.ext {r s : Resolution} (hmethods : r.methods.entries = s.methods.entries)
    (hidentifiers : r.identifiers.entries = s.identifiers.entries) : r = s := by
  obtain ⟨rm, ri⟩ := r
  obtain ⟨sm, si⟩ := s
  obtain rfl : rm = sm := OrderedMap.ext hmethods
  obtain rfl : ri = si := OrderedMap.ext hidentifiers
  rfl

/-- Recording adds a finding at the end of its table, if its position is new there. -/
theorem Resolution.add_eq_ok_iff {r s : Resolution}
    {found : Option (SourcePosition × Occurrence)} :
    r.add found = .ok s ↔
      s.methods.entries = r.methods.entries ++ methodEntries found.toList ∧
        s.identifiers.entries = r.identifiers.entries ++ identifierEntries found.toList := by
  match found with
  | none =>
    show Except.ok r = .ok s ↔ _ = _ ++ [] ∧ _ = _ ++ []
    rw [List.append_nil, List.append_nil, Except.ok.injEq]
    constructor
    · rintro rfl
      exact ⟨rfl, rfl⟩
    · rintro ⟨hmethods, hidentifiers⟩
      exact Resolution.ext hmethods.symm hidentifiers.symm
  | some (position, .method name) =>
    show (r.methods.record position name).map _ = .ok s ↔ _ = _ ++ [(position, name)] ∧ _ = _ ++ []
    rw [map_eq_ok_iff, List.append_nil]
    constructor
    · rintro ⟨table, htable, rfl⟩
      exact ⟨NameTable.record_eq_ok_iff.mp htable, rfl⟩
    · rintro ⟨hmethods, hidentifiers⟩
      exact ⟨s.methods, NameTable.record_eq_ok_iff.mpr hmethods,
        Resolution.ext rfl hidentifiers.symm⟩
  | some (position, .identifier name) =>
    show (r.identifiers.record position name).map _ = .ok s ↔
      _ = _ ++ [] ∧ _ = _ ++ [(position, name)]
    rw [map_eq_ok_iff, List.append_nil]
    constructor
    · rintro ⟨table, htable, rfl⟩
      exact ⟨rfl, NameTable.record_eq_ok_iff.mp htable⟩
    · rintro ⟨hmethods, hidentifiers⟩
      exact ⟨s.identifiers, NameTable.record_eq_ok_iff.mpr hidentifiers,
        Resolution.ext hmethods.symm rfl⟩

namespace Context

/-- What the visits of a list of places find, in their order. -/
def findings (ctx : Context) (node : Node) (outer : ScopeId) (taken : Nat) (places : List Place) :
    List (SourcePosition × Occurrence) :=
  places.filterMap fun p => (ctx.visitWithin node outer taken p).toOption.join

theorem findings_cons {ctx : Context} {node : Node} {outer : ScopeId} {taken : Nat} {p : Place}
    {found : Option (SourcePosition × Occurrence)}
    (h : ctx.visitWithin node outer taken p = .ok found) (places : List Place) :
    ctx.findings node outer taken (p :: places) =
      found.toList ++ ctx.findings node outer taken places := by
  rw [findings, List.filterMap_cons, h]
  cases found <;> rfl

theorem methodEntries_append (first later : List (SourcePosition × Occurrence)) :
    methodEntries (first ++ later) = methodEntries first ++ methodEntries later :=
  List.filterMap_append

theorem identifierEntries_append (first later : List (SourcePosition × Occurrence)) :
    identifierEntries (first ++ later) = identifierEntries first ++ identifierEntries later :=
  List.filterMap_append

/-- Visits are recorded exactly when each of them passes and the tables can be listed. -/
theorem foldlM_recordVisit_eq_ok_iff {ctx : Context} {node : Node} {outer : ScopeId} {taken : Nat}
    {places : List Place} {r s : Resolution} :
    places.foldlM (ctx.recordVisit node outer taken) r = .ok s ↔
      (∀ p ∈ places, ∃ found, ctx.visitWithin node outer taken p = .ok found) ∧
        s.methods.entries =
          r.methods.entries ++ methodEntries (ctx.findings node outer taken places) ∧
        s.identifiers.entries =
          r.identifiers.entries ++ identifierEntries (ctx.findings node outer taken places) := by
  induction places generalizing r with
  | nil =>
    show r.add none = .ok s ↔ _
    rw [Resolution.add_eq_ok_iff]
    exact ⟨fun h => ⟨nofun, h⟩, fun h => h.2⟩
  | cons p places ih =>
    rw [List.foldlM_cons, bind_eq_ok_iff, List.forall_mem_cons]
    constructor
    · rintro ⟨next, hnext, hrest⟩
      obtain ⟨found, hfound, hadd⟩ := bind_eq_ok_iff.mp hnext
      obtain ⟨hmethods, hidentifiers⟩ := Resolution.add_eq_ok_iff.mp hadd
      obtain ⟨hpass, hmethods', hidentifiers'⟩ := ih.mp hrest
      rw [findings_cons hfound, methodEntries_append, identifierEntries_append,
        ← List.append_assoc, ← List.append_assoc, ← hmethods, ← hidentifiers]
      exact ⟨⟨⟨found, hfound⟩, hpass⟩, hmethods', hidentifiers'⟩
    · rintro ⟨⟨⟨found, hfound⟩, hpass⟩, hmethods, hidentifiers⟩
      rw [findings_cons hfound, methodEntries_append, ← List.append_assoc] at hmethods
      rw [findings_cons hfound, identifierEntries_append, ← List.append_assoc] at hidentifiers
      -- the tables after this visit are the beginnings of the tables at the end
      let next : Resolution :=
        ⟨s.methods.ofPrefix _ _ hmethods, s.identifiers.ofPrefix _ _ hidentifiers⟩
      have hadd : r.add found = .ok next := Resolution.add_eq_ok_iff.mpr ⟨rfl, rfl⟩
      exact ⟨next, bind_eq_ok_iff.mpr ⟨found, hfound, hadd⟩,
        ih.mpr ⟨hpass, hmethods, hidentifiers⟩⟩

/-! ## The visits of a file -/

/-- The scope of a place of a file. -/
def scopeAt? (ctx : Context) (root : Node) (p : Place) : Option ScopeId :=
  root.scopeWithin? ctx.scopes ScopeTree.root 0 p

/-- What the visit of a place of a file finds. -/
def visit (ctx : Context) (root : Node) (p : Place) :
    Except ResolveError (Option (SourcePosition × Occurrence)) :=
  ctx.visitWithin root ScopeTree.root 0 p

/-- The occurrences of a file, in document order. -/
def occurrences (ctx : Context) (root : Node) : List (SourcePosition × Occurrence) :=
  ctx.findings root ScopeTree.root 0 root.visits

/-- The place has a scope, in which its node can open its contours and fails no check. -/
def Passes (ctx : Context) (root : Node) (p : Place) : Prop :=
  ∃ node scope, root.at? p = some node ∧ ctx.scopeAt? root p = some scope ∧
    (∃ inner, ctx.scopes.openContours node.kind.contourDepth scope (root.contourIndex p) =
      .ok inner) ∧
    ∃ occurrence, ctx.denotes scope node = .ok occurrence

variable {ctx : Context} {root : Node} {p : Place}

theorem visit_eq {node : Node} {scope : ScopeId} (hnode : root.at? p = some node)
    (hscope : ctx.scopeAt? root p = some scope) :
    ctx.visit root p = ctx.visitIn node scope (root.contourIndex p) := by
  have hnumber : root.contourNumber 0 p = root.contourIndex p := by
    rw [Node.contourNumber, ite_self, Nat.add_zero]
  rw [scopeAt?] at hscope
  rw [visit, visitWithin, hnode, hscope, ← hnumber]

theorem Passes.visit_eq_ok (h : ctx.Passes root p) : ∃ found, ctx.visit root p = .ok found := by
  obtain ⟨node, scope, hnode, hscope, ⟨inner, hopen⟩, occurrence, hdenotes⟩ := h
  rw [visit_eq hnode hscope, visitIn_of_ok hopen]
  exact ⟨_, congrArg (Except.map _) hdenotes⟩

theorem passes_of_visit_eq_ok {node : Node} {scope : ScopeId}
    {found : Option (SourcePosition × Occurrence)} (hnode : root.at? p = some node)
    (hscope : ctx.scopeAt? root p = some scope) (h : ctx.visit root p = .ok found) :
    ctx.Passes root p := by
  rw [visit_eq hnode hscope] at h
  cases hopen : ctx.scopes.openContours node.kind.contourDepth scope (root.contourIndex p) with
  | error lacking =>
    rw [visitIn_of_error hopen] at h
    cases h
  | ok inner =>
    rw [visitIn_of_ok hopen] at h
    obtain ⟨occurrence, hdenotes, -⟩ := map_eq_ok_iff.mp h
    exact ⟨node, scope, hnode, hscope, ⟨inner, hopen⟩, occurrence, hdenotes⟩

/-- Where no visit fails, contours have scopes all the way down, and so has every visited place. -/
theorem forall_passes_iff :
    (∀ p ∈ root.visits, ∃ found, ctx.visit root p = .ok found) ↔
      ∀ p, root.Visited p → ctx.Passes root p := by
  constructor
  · intro h p hp
    induction hn : p.length using Nat.strongRecOn generalizing p with
    | ind n ih =>
      subst hn
      obtain ⟨node, hnode⟩ := Option.isSome_iff_exists.mp hp.isSome_at?
      obtain ⟨found, hfound⟩ := h p (Node.mem_visits_iff.mpr hp)
      -- the nearest contour is visited and passes, so it opens the scope that `p` stands in
      have hscope : ∃ scope, ctx.scopeAt? root p = some scope := by
        cases habove : root.contourAbove? p with
        | none => exact ⟨_, Node.scopeWithin?_of_none habove⟩
        | some contour =>
          have hcontour := Node.mem_visits_iff.mp
            (Node.mem_visits_of_contourAbove? (Node.mem_visits_iff.mpr hp) habove)
          obtain ⟨around, scope, haround, hscope, ⟨inner, hopen⟩, -⟩ :=
            ih _ (Node.length_contourAbove?_lt habove) contour hcontour rfl
          have hdepth : root.contourDepthAt contour = around.kind.contourDepth := by
            rw [Node.contourDepthAt, haround]
            rfl
          refine ⟨inner, ?_⟩
          rw [scopeAt?] at hscope ⊢
          rw [Node.scopeWithin?_of_some habove, hscope, Option.bind_some, hdepth,
            Node.contourNumber, ite_self, Nat.add_zero, hopen]
          rfl
      obtain ⟨scope, hscope⟩ := hscope
      exact passes_of_visit_eq_ok hnode hscope hfound
  · intro h p hp
    exact (h p (Node.mem_visits_iff.mp hp)).visit_eq_ok

end Context

/-- Resolving a file records its visits in document order, from empty tables. -/
theorem resolveFile_eq_foldlM (file : FileId) (root : Node) (scopes : ScopeTree) (policy : Policy) :
    resolveFile file root scopes policy =
      root.visits.foldlM ((⟨file, scopes, policy⟩ : Context).recordVisit root ScopeTree.root 0)
        .empty := by
  rw [resolveFile, ScopeCursor.root, ScopeCursor.onScope, Context.walk_eq_foldlM]
  cases root.visits.foldlM ((⟨file, scopes, policy⟩ : Context).recordVisit root ScopeTree.root 0)
    Resolution.empty <;> rfl

theorem resolveFile_eq_ok_iff {file : FileId} {root : Node} {scopes : ScopeTree} {policy : Policy}
    {r : Resolution} :
    resolveFile file root scopes policy = .ok r ↔
      (∀ p, root.Visited p → (⟨file, scopes, policy⟩ : Context).Passes root p) ∧
        r.methods.entries =
          methodEntries ((⟨file, scopes, policy⟩ : Context).occurrences root) ∧
        r.identifiers.entries =
          identifierEntries ((⟨file, scopes, policy⟩ : Context).occurrences root) := by
  rw [resolveFile_eq_foldlM, Context.foldlM_recordVisit_eq_ok_iff, ← Context.forall_passes_iff]
  rfl

/-- **What a file resolves to is read off the places of its nodes.** A walk of the file records its
visits in document order and fails with the first that fails; it succeeds exactly when every
visited place passes in its own scope and no position comes twice in a table. -/
theorem resolveFile_eq_visits (file : FileId) (root : Node) (scopes : ScopeTree) (policy : Policy) :
    let ctx : Context := ⟨file, scopes, policy⟩
    (root.visits.Pairwise (· < ·) ∧ ∀ p, p ∈ root.visits ↔ root.Visited p) ∧
    resolveFile file root scopes policy =
      root.visits.foldlM (ctx.recordVisit root ScopeTree.root 0) .empty ∧
    ((∃ r, resolveFile file root scopes policy = .ok r) ↔
      (∀ p, root.Visited p → ctx.Passes root p) ∧
        ((methodEntries (ctx.occurrences root)).map Prod.fst).Nodup ∧
        ((identifierEntries (ctx.occurrences root)).map Prod.fst).Nodup) ∧
    ∀ r, resolveFile file root scopes policy = .ok r →
      r.methods.entries = methodEntries (ctx.occurrences root) ∧
        r.identifiers.entries = identifierEntries (ctx.occurrences root) := by
  intro ctx
  refine ⟨⟨root.pairwise_visits, fun p => Node.mem_visits_iff⟩,
    resolveFile_eq_foldlM file root scopes policy, ⟨?_, ?_⟩, ?_⟩
  · rintro ⟨r, hr⟩
    obtain ⟨hpass, hmethods, hidentifiers⟩ := resolveFile_eq_ok_iff.mp hr
    refine ⟨hpass, ?_, ?_⟩
    · rw [← hmethods]
      exact r.methods.nodup_keys
    · rw [← hidentifiers]
      exact r.identifiers.nodup_keys
  · rintro ⟨hpass, hmethods, hidentifiers⟩
    exact ⟨⟨⟨_, hmethods⟩, ⟨_, hidentifiers⟩⟩, resolveFile_eq_ok_iff.mpr ⟨hpass, rfl, rfl⟩⟩
  · intro r hr
    exact (resolveFile_eq_ok_iff.mp hr).2

/-- A contour hidden in the value that a field is taken of, and a block after it. -/
def hiddenContour : Node :=
  .compilationUnit
    [.fieldOf ⟨1, 0⟩ (.newObject ⟨1, 0⟩ (.primitive ⟨1, 4⟩ "int") [] (some [])) "size",
      .block ⟨2, 0⟩ [.simpleName ⟨3, 0⟩ "x"]]

def hiddenContourScopes : ScopeTree :=
  .build
    [.enter .compilationUnit "unit", .enter .block "body", .exit, .enter .block "block",
      .declareVariable "x"]

theorem visits_hiddenContour :
    ∃ r, resolveFile ⟨0⟩ hiddenContour hiddenContourScopes .default = .ok r ∧
      r.identifiers.entries = [(⟨⟨0⟩, ⟨3, 0⟩⟩, ⟨"x", .scope "block"⟩)] := by
  obtain ⟨r, hr⟩ : ∃ r, resolveFile ⟨0⟩ hiddenContour hiddenContourScopes .default = .ok r :=
    exists_eq_ok_of_isSome (by decide +kernel)
  obtain ⟨-, -, -, hentries⟩ :=
    resolveFile_eq_visits ⟨0⟩ hiddenContour hiddenContourScopes .default
  refine ⟨r, hr, ?_⟩
  rw [(hentries r hr).2]
  decide +kernel

end NameResolution
