import Mathlib.Data.List.Forall2
import Mathlib.Data.List.Pairwise
import NameResolution.Proofs.Findings
import NameResolution.Proofs.ProgramFaults

/-!
# One entry for each occurrence

Each table of a resolution lists the visited occurrences that resolve into it, one entry for each
and in document order (`Context.forall₂_entriesOf`). Two of them at one position stop the walk at
the later one, with the names of both; nothing else stops it with a repeated position. The two
tables do not see each other: a call and a name may start at the same place.

`resolveFile_distinctPositions` puts this together. What it says of a finished walk and of the
beginning of a stopped one comes from the same lemmas about a list of places that have been
recorded (`Context.keepsApart_of_foldlM`).
-/

namespace NameResolution

/-- The qualified name of an occurrence. -/
def Occurrence.name : Occurrence → String
  | .method q => q.name
  | .identifier q => q.name

namespace Resolution

/-- The entries of one kind, as occurrences; types are not recorded. -/
def entriesOf (r : Resolution) : NameType → List (SourcePosition × Occurrence)
  | .method => r.methods.entries.map fun entry => (entry.1, .method entry.2)
  | .identifier => r.identifiers.entries.map fun entry => (entry.1, .identifier entry.2)
  | .type => []

variable {r : Resolution}

theorem nodup_entriesOf (r : Resolution) (kind : NameType) :
    ((r.entriesOf kind).map Prod.fst).Nodup := by
  cases kind with
  | method =>
    rw [entriesOf, List.map_map]
    exact r.methods.nodup_keys
  | identifier =>
    rw [entriesOf, List.map_map]
    exact r.identifiers.nodup_keys
  | type => exact .nil

theorem ofKind_type (found : List (SourcePosition × Occurrence)) : ofKind .type found = [] := by
  apply List.filter_eq_nil_iff.mpr
  rintro ⟨position, occurrence⟩ -
  cases occurrence <;> simp [Occurrence.kind]

/-- Tables that list some occurrences hold those of each kind. -/
theorem entriesOf_eq_ofKind {found : List (SourcePosition × Occurrence)}
    (hmethods : r.methods.entries = methodEntries found)
    (hidentifiers : r.identifiers.entries = identifierEntries found) (kind : NameType) :
    r.entriesOf kind = ofKind kind found := by
  cases kind with
  | method => rw [entriesOf, hmethods, map_methodEntries]
  | identifier => rw [entriesOf, hidentifiers, map_identifierEntries]
  | type => rw [entriesOf, ofKind_type]

theorem find?_of_mem_map {kind : NameType} {table : NameTable kind}
    {embed : QualifiedName kind → Occurrence} (hembed : Function.Injective embed)
    {position : SourcePosition} {name : QualifiedName kind}
    (h : (position, embed name) ∈ table.entries.map fun entry => (entry.1, embed entry.2)) :
    table.find? position = some name := by
  obtain ⟨⟨position', name'⟩, hentry, heq⟩ := List.mem_map.mp h
  obtain ⟨rfl, hname⟩ := Prod.mk.inj heq
  obtain rfl := hembed hname
  obtain ⟨i, hi⟩ := List.mem_iff_getElem?.mp hentry
  exact OrderedMap.find?_of_getElem?_entries hi

theorem methodAt?_of_mem {position : SourcePosition} {name : QualifiedName .method}
    (h : (position, .method name) ∈ r.entriesOf .method) : r.methodAt? position = some name :=
  find?_of_mem_map (fun _ _ => Occurrence.method.inj) h

theorem identifierAt?_of_mem {position : SourcePosition} {name : QualifiedName .identifier}
    (h : (position, .identifier name) ∈ r.entriesOf .identifier) :
    r.identifierAt? position = some name :=
  find?_of_mem_map (fun _ _ => Occurrence.identifier.inj) h

end Resolution

/-- A table refuses a name only for the name that it has at the position. -/
theorem NameTable.record_eq_error {kind : NameType} {table : NameTable kind}
    {position : SourcePosition} {name : QualifiedName kind} {e : ResolveError}
    (h : table.record position name = .error e) :
    ∃ existing, (position, existing) ∈ table.entries ∧
      e = .repeatedPosition position existing.name name.name := by
  cases hfind : table.find? position with
  | none =>
    rw [record_of_find?_eq_none name hfind] at h
    cases h
  | some existing =>
    rw [record_of_find?_eq_some name hfind] at h
    obtain ⟨before, after, hentries, -⟩ := List.lookup_eq_some_iff.mp hfind
    refine ⟨existing, ?_, (Except.error.inj h).symm⟩
    rw [hentries]
    exact List.mem_append_right _ List.mem_cons_self

/-- An occurrence is refused only for an entry of its own table at its position. -/
theorem Resolution.add_eq_error {r : Resolution} {found : Option (SourcePosition × Occurrence)}
    {e : ResolveError} (h : r.add found = .error e) :
    ∃ position first second, found = some (position, second) ∧
      (position, first) ∈ r.entriesOf second.kind ∧
      e = .repeatedPosition position first.name second.name := by
  match found with
  | none => cases h
  | some (position, .method name) =>
    obtain ⟨existing, hmem, rfl⟩ := NameTable.record_eq_error (map_eq_error_iff.mp h)
    exact ⟨position, .method existing, .method name, rfl, List.mem_map_of_mem hmem, rfl⟩
  | some (position, .identifier name) =>
    obtain ⟨existing, hmem, rfl⟩ := NameTable.record_eq_error (map_eq_error_iff.mp h)
    exact ⟨position, .identifier existing, .identifier name, rfl, List.mem_map_of_mem hmem, rfl⟩

/-! ## Lists -/

/-- A fold fails at an element that it reaches. -/
theorem exists_of_foldlM_eq_error {ε α β : Type} {f : β → α → Except ε β} {l : List α} {b : β}
    {e : ε} (h : l.foldlM f b = .error e) :
    ∃ before a after c, l = before ++ a :: after ∧ before.foldlM f b = .ok c ∧
      f c a = .error e := by
  induction l generalizing b with
  | nil => cases h
  | cons a l ih =>
    rw [List.foldlM_cons] at h
    cases hstep : f b a with
    | error e' =>
      rw [hstep] at h
      exact ⟨[], a, l, b, rfl, rfl, hstep.trans h⟩
    | ok next =>
      rw [hstep] at h
      obtain ⟨before, a', after, c, rfl, hbefore, herror⟩ := ih h
      refine ⟨a :: before, a', after, c, rfl, ?_, herror⟩
      rw [List.foldlM_cons, hstep]
      exact hbefore

/-- What comes out of a list stands beside what it comes from. -/
theorem forall₂_filterMap {α β : Type} (f : α → Option β) (l : List α) :
    List.Forall₂ (fun a b => a ∈ l ∧ f a = some b) (l.filter fun a => (f a).isSome)
      (l.filterMap f) := by
  induction l with
  | nil => exact .nil
  | cons a l ih =>
    have hlater := ih.imp fun a' b h => And.intro (List.mem_cons_of_mem a h.1) h.2
    cases h : f a with
    | none =>
      rw [List.filterMap_cons_none h, List.filter_cons_of_neg (by simp [h])]
      exact hlater
    | some b =>
      rw [List.filterMap_cons_some h, List.filter_cons_of_pos (by simp [h])]
      exact .cons ⟨List.mem_cons_self, h⟩ hlater

namespace Context

/-- The place is visited, and the node there denotes the occurrence in its scope. -/
def Resolves (ctx : Context) (root : Node) (p : Place) (position : SourcePosition)
    (occurrence : Occurrence) : Prop :=
  root.Visited p ∧ ∃ node scope, root.at? p = some node ∧ ctx.scopeAt? root p = some scope ∧
    ctx.position node = position ∧ ctx.denotes scope node = .ok (some occurrence)

/-- Of these places no two resolve into one table at one position. -/
def KeepsApart (ctx : Context) (root : Node) (among : Place → Prop) : Prop :=
  ∀ p q position first second, among p → among q → ctx.Resolves root p position first →
    ctx.Resolves root q position second → first.kind = second.kind → p = q

/-- What the visit of a place adds to the table of this kind. -/
def recordedAt? (ctx : Context) (root : Node) (kind : NameType) (p : Place) :
    Option (SourcePosition × Occurrence) :=
  (ctx.visit root p).toOption.join.filter fun entry => entry.2.kind = kind

variable {ctx : Context} {root : Node} {p q : Place} {position : SourcePosition}
  {occurrence : Occurrence} {kind : NameType}

/-! ## What a visit finds -/

/-- What resolves at a place is what its visit finds. -/
theorem resolves_iff :
    ctx.Resolves root p position occurrence ↔
      p ∈ root.visits ∧ ctx.visit root p = .ok (some (position, occurrence)) := by
  rw [Resolves, ← Node.mem_visits_iff]
  refine and_congr_right fun hp => ⟨?_, fun hvisit => ?_⟩
  · rintro ⟨node, scope, hnode, hscope, rfl, hdenotes⟩
    have hdepth : node.kind.contourDepth = 0 := by
      cases hdepth : node.kind.contourDepth with
      | zero => rfl
      | succ more => cases (denotes_of_contourDepth hdepth scope).symm.trans hdenotes
    have hopen : ctx.scopes.openContours node.kind.contourDepth scope (root.contourIndex p) =
        .ok scope := by
      rw [hdepth]
      rfl
    rw [visit_eq hnode hscope, visitIn_of_ok hopen, denotesAt, hdenotes]
    rfl
  · obtain ⟨node, hnode⟩ := Option.isSome_iff_exists.mp (Node.mem_visits_iff.mp hp).isSome_at?
    cases hscope : ctx.scopeAt? root p with
    | none =>
      have hnone : root.scopeWithin? ctx.scopes ScopeTree.root 0 p = none := hscope
      rw [visit, visitWithin, hnode, hnone] at hvisit
      cases hvisit
    | some scope =>
      have hpasses := passes_of_visit_eq_ok hnode hscope hvisit
      obtain ⟨node', scope', hnode', hscope', ⟨inner, hopen⟩, -⟩ := hpasses
      obtain rfl : node = node' := Option.some.inj (hnode.symm.trans hnode')
      obtain rfl : scope = scope' := Option.some.inj (hscope.symm.trans hscope')
      rw [visit_eq hnode hscope, visitIn_of_ok hopen] at hvisit
      obtain ⟨found, hdenotes, hentry⟩ := map_eq_ok_iff.mp hvisit
      obtain ⟨occurrence', rfl, hpair⟩ := Option.map_eq_some_iff.mp hentry
      obtain ⟨hposition, rfl⟩ := Prod.mk.inj hpair
      exact ⟨node, scope, hnode, rfl, hposition, hdenotes⟩

theorem recordedAt?_eq_some_iff (hp : p ∈ root.visits) :
    ctx.recordedAt? root kind p = some (position, occurrence) ↔
      ctx.Resolves root p position occurrence ∧ occurrence.kind = kind := by
  rw [recordedAt?, Option.filter_eq_some_iff, decide_eq_true_iff, resolves_iff,
    and_iff_right hp]
  refine and_congr_left fun _ => ?_
  cases ctx.visit root p with
  | error e => exact iff_of_false nofun nofun
  | ok found => exact (Except.ok.injEq _ _).symm ▸ Iff.rfl

theorem Resolves.file_eq (h : ctx.Resolves root p position occurrence) :
    position.file = ctx.file := by
  obtain ⟨-, node, scope, -, -, rfl, -⟩ := h
  rfl

/-- That a position comes twice is for the tables to find, not for a visit. -/
theorem visit_ne_repeatedPosition {existing name : String} :
    ctx.visit root p ≠ .error (.repeatedPosition position existing name) := by
  intro h
  rw [visit, visitWithin] at h
  split at h
  · rename_i node scope hnode hscope
    rw [visitIn] at h
    split at h
    · cases h
    · cases ((ctx.faultsAt_denotes scope node).map _ _ h).1
  · cases h

/-! ## Recorded places -/

theorem ofKind_findings (kind : NameType) (places : List Place) :
    ofKind kind (ctx.findings root ScopeTree.root 0 places) =
      places.filterMap (ctx.recordedAt? root kind) :=
  List.filter_filterMap

/-- Places that have been recorded fill the tables. -/
theorem entriesOf_of_foldlM {places : List Place} {s : Resolution}
    (h : places.foldlM (ctx.recordVisit root ScopeTree.root 0) .empty = .ok s)
    (kind : NameType) : s.entriesOf kind = places.filterMap (ctx.recordedAt? root kind) := by
  obtain ⟨-, hmethods, hidentifiers⟩ := foldlM_recordVisit_eq_ok_iff.mp h
  rw [Resolution.entriesOf_eq_ofKind hmethods hidentifiers, ofKind_findings]

/-- Places that have been recorded are kept apart. -/
theorem keepsApart_of_foldlM {places : List Place} {s : Resolution} {among : Place → Prop}
    (h : places.foldlM (ctx.recordVisit root ScopeTree.root 0) .empty = .ok s)
    (hamong : ∀ p ∈ root.visits, among p → p ∈ places) : ctx.KeepsApart root among := by
  intro p q position first second hp hq hfirst hsecond hkind
  have hnodup := s.nodup_entriesOf second.kind
  rw [entriesOf_of_foldlM h, List.Nodup, List.pairwise_map, List.pairwise_filterMap] at hnodup
  by_contra hne
  have hp' := (resolves_iff.mp hfirst).1
  have hq' := (resolves_iff.mp hsecond).1
  have hsymm : Std.Symm fun p q : Place => ∀ b, ctx.recordedAt? root second.kind p = some b →
      ∀ b', ctx.recordedAt? root second.kind q = some b' → b.1 ≠ b'.1 :=
    ⟨fun p q hpq b hb b' hb' => (hpq b' hb' b hb).symm⟩
  have hpositions := hnodup.forall (hamong p hp' hp) (hamong q hq' hq) hne
  exact hpositions _ ((recordedAt?_eq_some_iff hp').mpr ⟨hfirst, hkind⟩)
    _ ((recordedAt?_eq_some_iff hq').mpr ⟨hsecond, rfl⟩) rfl

/-- An entry was recorded at one of the places, which resolves to it. -/
theorem exists_of_mem_entriesOf {places : List Place} {s : Resolution}
    (h : places.foldlM (ctx.recordVisit root ScopeTree.root 0) .empty = .ok s)
    (hplaces : ∀ p ∈ places, p ∈ root.visits)
    (hentry : (position, occurrence) ∈ s.entriesOf kind) :
    ∃ p ∈ places, ctx.Resolves root p position occurrence ∧ occurrence.kind = kind := by
  rw [entriesOf_of_foldlM h] at hentry
  obtain ⟨p, hp, hrecorded⟩ := List.mem_filterMap.mp hentry
  exact ⟨p, hp, (recordedAt?_eq_some_iff (hplaces p hp)).mp hrecorded⟩

/-- What resolves at a place that was recorded has its entry. -/
theorem Resolves.mem_entriesOf {places : List Place} {s : Resolution}
    (hresolves : ctx.Resolves root p position occurrence)
    (h : places.foldlM (ctx.recordVisit root ScopeTree.root 0) .empty = .ok s)
    (hp : p ∈ places) : (position, occurrence) ∈ s.entriesOf occurrence.kind := by
  rw [entriesOf_of_foldlM h]
  have hvisit := (resolves_iff.mp hresolves).1
  exact List.mem_filterMap.mpr ⟨p, hp, (recordedAt?_eq_some_iff hvisit).mpr ⟨hresolves, rfl⟩⟩

/-- The places of a table stand in document order beside its entries. -/
theorem forall₂_entriesOf {s : Resolution}
    (h : root.visits.foldlM (ctx.recordVisit root ScopeTree.root 0) .empty = .ok s)
    (kind : NameType) :
    ∃ places : List Place, places.Pairwise (· < ·) ∧
      (∀ p, p ∈ places ↔
        ∃ position occurrence, ctx.Resolves root p position occurrence ∧ occurrence.kind = kind) ∧
      List.Forall₂ (fun p entry => ctx.Resolves root p entry.1 entry.2) places
        (s.entriesOf kind) := by
  refine ⟨root.visits.filter fun p => (ctx.recordedAt? root kind p).isSome,
    root.pairwise_visits.filter _, fun p => ?_, ?_⟩
  · rw [List.mem_filter, Option.isSome_iff_exists]
    constructor
    · rintro ⟨hp, ⟨position, occurrence⟩, hrecorded⟩
      exact ⟨position, occurrence, (recordedAt?_eq_some_iff hp).mp hrecorded⟩
    · rintro ⟨position, occurrence, hresolves⟩
      have hp := (resolves_iff.mp hresolves.1).1
      exact ⟨hp, _, (recordedAt?_eq_some_iff hp).mpr hresolves⟩
  · rw [entriesOf_of_foldlM h]
    refine (forall₂_filterMap _ _).imp fun p entry hentry => ?_
    exact ((recordedAt?_eq_some_iff hentry.1).mp hentry.2).1

/-- A position is repeated by the first visit that finds it in its table, after the visit that is
recorded there. -/
theorem exists_of_repeatedPosition {existing name : String}
    (h : root.visits.foldlM (ctx.recordVisit root ScopeTree.root 0) .empty =
      .error (.repeatedPosition position existing name)) :
    ∃ p q first second, p < q ∧ ctx.Resolves root p position first ∧
      ctx.Resolves root q position second ∧ first.kind = second.kind ∧
      first.name = existing ∧ second.name = name ∧ ctx.KeepsApart root (· < q) := by
  obtain ⟨before, q, after, s, hvisits, hbefore, hfails⟩ := exists_of_foldlM_eq_error h
  have horder := root.pairwise_visits
  rw [hvisits, List.pairwise_append] at horder
  have hmem (p : Place) (hp : p ∈ before) : p ∈ root.visits := by
    rw [hvisits]
    exact List.mem_append_left _ hp
  have hq : q ∈ root.visits := by
    rw [hvisits]
    exact List.mem_append_right _ List.mem_cons_self
  cases hvisit : ctx.visit root q with
  | error e =>
    rw [recordVisit, ← visit, hvisit] at hfails
    cases hfails
    exact absurd hvisit visit_ne_repeatedPosition
  | ok found =>
    rw [recordVisit, ← visit, hvisit] at hfails
    obtain ⟨position', first, second, rfl, hentry, herror⟩ := Resolution.add_eq_error hfails
    obtain ⟨rfl, rfl, rfl⟩ := ResolveError.repeatedPosition.inj herror
    -- the entry in the way was recorded at an earlier place
    obtain ⟨p, hp, hfirst, hkind⟩ := exists_of_mem_entriesOf hbefore hmem hentry
    refine ⟨p, q, first, second, horder.2.2 p hp q List.mem_cons_self, hfirst,
      resolves_iff.mpr ⟨hq, hvisit⟩, hkind, rfl, rfl, ?_⟩
    refine keepsApart_of_foldlM hbefore fun p hp hlt => ?_
    rw [hvisits] at hp
    rcases List.mem_append.mp hp with hp | hp
    · exact hp
    · rcases List.mem_cons.mp hp with rfl | hp
      · exact absurd hlt (List.lt_irrefl p)
      · have hgt := (List.pairwise_cons.mp horder.2.1).1 p hp
        exact absurd (List.lt_trans hlt hgt) (List.lt_irrefl p)

end Context

/-- **No occurrence is lost, replaced or recorded twice.** -/
theorem resolveFile_distinctPositions (file : FileId) (root : Node) (scopes : ScopeTree)
    (policy : Policy) :
    let ctx : Context := ⟨file, scopes, policy⟩
    -- a finished walk has one entry for each visited occurrence
    (∀ r, resolveFile file root scopes policy = .ok r →
      ctx.KeepsApart root (fun _ => True) ∧
      (∀ kind, ((r.entriesOf kind).map Prod.fst).Nodup ∧
        (∀ entry ∈ r.entriesOf kind, entry.1.file = file) ∧
        ∃ places : List Place, places.Pairwise (· < ·) ∧
          (∀ p, p ∈ places ↔ ∃ position occurrence,
            ctx.Resolves root p position occurrence ∧ occurrence.kind = kind) ∧
          (r.entriesOf kind).length = places.length ∧
          List.Forall₂ (fun p entry => ctx.Resolves root p entry.1 entry.2) places
            (r.entriesOf kind)) ∧
      -- a call and a name at one position have an entry each
      ∀ p q position method identifier, ctx.Resolves root p position (.method method) →
        ctx.Resolves root q position (.identifier identifier) →
        r.methodAt? position = some method ∧ r.identifierAt? position = some identifier) ∧
    -- a repeated position is one of two occurrences, the first to be repeated
    (∀ position existing name,
      resolveFile file root scopes policy = .error (.repeatedPosition position existing name) →
      ∃ p q first second, p < q ∧ ctx.Resolves root p position first ∧
        ctx.Resolves root q position second ∧ first.kind = second.kind ∧
        first.name = existing ∧ second.name = name ∧ ctx.KeepsApart root (· < q)) ∧
    (ctx.KeepsApart root (fun _ => True) → ∀ position existing name,
      resolveFile file root scopes policy ≠ .error (.repeatedPosition position existing name)) := by
  intro ctx
  have hrepeated : ∀ position existing name,
      resolveFile file root scopes policy = .error (.repeatedPosition position existing name) →
      ∃ p q first second, p < q ∧ ctx.Resolves root p position first ∧
        ctx.Resolves root q position second ∧ first.kind = second.kind ∧
        first.name = existing ∧ second.name = name ∧ ctx.KeepsApart root (· < q) := by
    intro position existing name h
    rw [resolveFile_eq_foldlM] at h
    exact Context.exists_of_repeatedPosition h
  refine ⟨fun r hr => ?_, hrepeated, fun hapart position existing name h => ?_⟩
  · rw [resolveFile_eq_foldlM] at hr
    refine ⟨Context.keepsApart_of_foldlM hr fun p hp _ => hp, fun kind => ?_, ?_⟩
    · obtain ⟨places, hsorted, hplaces, hentries⟩ := Context.forall₂_entriesOf hr kind
      refine ⟨r.nodup_entriesOf kind, fun entry hentry => ?_, places, hsorted, hplaces,
        hentries.length_eq.symm, hentries⟩
      obtain ⟨p, -, hresolves, -⟩ := Context.exists_of_mem_entriesOf hr (fun p hp => hp) hentry
      exact hresolves.file_eq
    · intro p q position method identifier hmethod hidentifier
      have hp := (Context.resolves_iff.mp hmethod).1
      have hq := (Context.resolves_iff.mp hidentifier).1
      exact ⟨Resolution.methodAt?_of_mem (hmethod.mem_entriesOf hr hp),
        Resolution.identifierAt?_of_mem (hidentifier.mem_entriesOf hr hq)⟩
  · obtain ⟨p, q, first, second, hlt, hfirst, hsecond, hkind, -⟩ :=
      hrepeated position existing name h
    obtain rfl := hapart p q position first second trivial trivial hfirst hsecond hkind
    exact List.lt_irrefl p hlt

/-- A method that calls itself with these names as arguments, all at one place. -/
def oneStart (names : List String) : Node :=
  .compilationUnit
    [.classDecl ⟨0, 0⟩ "A" false
      [.methodDecl ⟨1, 0⟩ "run" [.call ⟨2, 0⟩ "run" (names.map (Node.simpleName ⟨2, 0⟩))]]]

def oneStartScopes : ScopeTree :=
  .build
    [.enter .compilationUnit "unit", .enterMembers "A" "A", .declareMethod "run" false,
      .declareField "x" false, .enter .callable "run", .declareVariable "y"]

theorem distinctPositions_oneStart :
    (∃ r, resolveFile ⟨0⟩ (oneStart ["y"]) oneStartScopes .default = .ok r ∧
      r.methodAt? ⟨⟨0⟩, ⟨2, 0⟩⟩ = some ⟨"A.run", .scope "A"⟩ ∧
      r.identifierAt? ⟨⟨0⟩, ⟨2, 0⟩⟩ = some ⟨"y", .scope "run"⟩ ∧
      ∀ position existing name, resolveFile ⟨0⟩ (oneStart ["y"]) oneStartScopes .default ≠
        .error (.repeatedPosition position existing name)) ∧
    let ctx : Context := ⟨⟨0⟩, oneStartScopes, .default⟩
    ∃ p q first second, p < q ∧
      ctx.Resolves (oneStart ["y", "x"]) p ⟨⟨0⟩, ⟨2, 0⟩⟩ first ∧
      ctx.Resolves (oneStart ["y", "x"]) q ⟨⟨0⟩, ⟨2, 0⟩⟩ second ∧ first.kind = second.kind ∧
      first.name = "y" ∧ second.name = "A.x" ∧
      ctx.KeepsApart (oneStart ["y", "x"]) (· < q) := by
  constructor
  · obtain ⟨r, hr⟩ : ∃ r, resolveFile ⟨0⟩ (oneStart ["y"]) oneStartScopes .default = .ok r :=
      exists_eq_ok_of_isSome (by decide +kernel)
    obtain ⟨hok, -, hapart⟩ :=
      resolveFile_distinctPositions ⟨0⟩ (oneStart ["y"]) oneStartScopes .default
    obtain ⟨hkeeps, -, hboth⟩ := hok r hr
    obtain ⟨hmethod, hidentifier⟩ := hboth [0, 0, 0] [0, 0, 0, 0] ⟨⟨0⟩, ⟨2, 0⟩⟩
      ⟨"A.run", .scope "A"⟩ ⟨"y", .scope "run"⟩
      (Context.resolves_iff.mpr ⟨by decide +kernel, by decide +kernel⟩)
      (Context.resolves_iff.mpr ⟨by decide +kernel, by decide +kernel⟩)
    exact ⟨r, hr, hmethod, hidentifier, hapart hkeeps⟩
  · have htwice : resolveFile ⟨0⟩ (oneStart ["y", "x"]) oneStartScopes .default =
        .error (.repeatedPosition ⟨⟨0⟩, ⟨2, 0⟩⟩ "y" "A.x") :=
      (map_eq_error_iff (f := fun _ => ())).mp (by decide +kernel)
    exact (resolveFile_distinctPositions ⟨0⟩ (oneStart ["y", "x"]) oneStartScopes .default).2.1
      _ _ _ htwice

end NameResolution
