import NameResolution.Proofs.Checks
import NameResolution.Proofs.DocumentOrder
import NameResolution.Proofs.ProgramFaults

/-!
# The names of scopes are labels

A scope is named only to be reported: as the origin of a name that was found in it, and in the
message that it lacks a child. Nothing is looked up or compared by that name, so with other names,
whatever they are, a file resolves to the same with the names of scopes replaced in its outcome
(`resolveFile_renameScopes`). No two scopes need to keep different names, and a scope that is called
like a phrase of a message does not become what the message speaks of.

The proof follows the way of a name: chains of scopes (`ScopeTree.ancestors_renameScopes`), lookups
on them (`ScopeTree.lookup_renameScopes`), what a node denotes (`Context.denotes_renameScopes`),
what a place adds to the tables (`Context.recordVisit_renameScopes`).
-/

namespace NameResolution

variable (h : String → String)

/-! ## Other names -/

/-- The scope under another name. -/
def Scope.renameScopes (scope : Scope) : Scope := { scope with name := h scope.name }

/-- The same tree, each scope under another name. -/
def ScopeTree.renameScopes (tree : ScopeTree) : ScopeTree where
  scopes := tree.scopes.map (Scope.renameScopes h)
  parent_lt := by
    intro id parent scope hget hparent
    rw [Array.getElem?_map] at hget
    obtain ⟨old, hold, rfl⟩ := Option.map_eq_some_iff.mp hget
    exact tree.parent_lt hold hparent

def Origin.renameScopes : Origin → Origin
  | .scope name => .scope (h name)
  | .enclosing => .enclosing

def QualifiedName.renameScopes {kind : NameType} (q : QualifiedName kind) : QualifiedName kind :=
  { q with origin := q.origin.renameScopes h }

def Occurrence.renameScopes : Occurrence → Occurrence
  | .method q => .method (q.renameScopes h)
  | .identifier q => .identifier (q.renameScopes h)

/-- The same entries, each with its scope under another name. -/
def Resolution.renameScopes (r : Resolution) : Resolution where
  methods := r.methods.mapValues (QualifiedName.renameScopes h)
  identifiers := r.identifiers.mapValues (QualifiedName.renameScopes h)

/-- The same error; if a scope lacks a child, that scope under another name. -/
def ResolveError.renameScopes : ResolveError → ResolveError
  | .scopeMismatch position scope children => .scopeMismatch position (h scope) children
  | e => e

/-- The outcome where scopes have other names. -/
def renameOutcome {α β : Type} (f : α → β) (outcome : Except ResolveError α) :
    Except ResolveError β :=
  (outcome.map f).mapError (ResolveError.renameScopes h)

def Context.renameScopes (ctx : Context) : Context :=
  { ctx with scopes := ctx.scopes.renameScopes h }

@[simp] theorem Context.scopes_renameScopes (ctx : Context) :
    (ctx.renameScopes h).scopes = ctx.scopes.renameScopes h := rfl

@[simp] theorem Context.policy_renameScopes (ctx : Context) :
    (ctx.renameScopes h).policy = ctx.policy := rfl

@[simp] theorem Context.position_renameScopes (ctx : Context) (node : Node) :
    (ctx.renameScopes h).position node = ctx.position node := rfl

/-! ## Outcomes -/

section Outcomes

variable {α β γ δ : Type}

/-- A fault of the program names no scope. -/
theorem FaultsAt.renameOutcome_eq {position : SourcePosition} {outcome : Except ResolveError α}
    (hfault : FaultsAt position outcome) (f : α → β) :
    renameOutcome h f outcome = outcome.map f := by
  cases outcome with
  | ok a => rfl
  | error e =>
    cases e with
    | scopeMismatch position scope children => cases (hfault _ rfl).1
    | _ => rfl

theorem renameOutcome_bind {f : α → β} {g : γ → δ} {outcome : Except ResolveError α}
    {next : α → Except ResolveError γ} {next' : β → Except ResolveError δ}
    (hnext : ∀ a, next' (f a) = renameOutcome h g (next a)) :
    renameOutcome h f outcome >>= next' = renameOutcome h g (outcome >>= next) := by
  cases outcome with
  | ok a => exact hnext a
  | error e => rfl

theorem renameOutcome_foldlM {f : α → β} {step : α → γ → Except ResolveError α}
    {step' : β → γ → Except ResolveError β}
    (hstep : ∀ a c, step' (f a) c = renameOutcome h f (step a c)) (l : List γ) (a : α) :
    l.foldlM step' (f a) = renameOutcome h f (l.foldlM step a) := by
  induction l generalizing a with
  | nil => rfl
  | cons c l ih =>
    rw [List.foldlM_cons, List.foldlM_cons, hstep]
    exact renameOutcome_bind h ih

end Outcomes

/-! ## Chains of scopes -/

namespace ScopeTree

variable (tree : ScopeTree) (id : ScopeId)

@[simp] theorem get?_renameScopes :
    (tree.renameScopes h).get? id = (tree.get? id).map (Scope.renameScopes h) :=
  Array.getElem?_map

@[simp] theorem children_renameScopes :
    (tree.renameScopes h).children id = tree.children id := by
  rw [children_eq, get?_renameScopes, children_eq, Option.map_map]
  rfl

/-- A scope of the tree is renamed; a number of another tree has no name. -/
theorem name_renameScopes (hid : id < tree.size) :
    (tree.renameScopes h).name id = h (tree.name id) := by
  obtain ⟨scope, hget⟩ := exists_get?_of_lt hid
  unfold name
  rw [get?_renameScopes, hget]
  rfl

theorem ancestors_renameScopes :
    (tree.renameScopes h).ancestors id =
      (tree.ancestors id).map fun entry => (entry.1, entry.2.renameScopes h) := by
  induction id using tree.ancestors_induction with
  | unknown id hget hchain =>
    rw [hchain, ancestors_of_get?_eq_none]
    · rfl
    · rw [get?_renameScopes, hget]
      rfl
  | top id scope hget hparent hchain =>
    have hget' : (tree.renameScopes h).get? id = some (scope.renameScopes h) := by
      rw [get?_renameScopes, hget]
      rfl
    rw [hchain, ancestors_of_parent_eq_none hget' hparent]
    rfl
  | inner id scope parent hget hparent hchain ih =>
    have hget' : (tree.renameScopes h).get? id = some (scope.renameScopes h) := by
      rw [get?_renameScopes, hget]
      rfl
    rw [hchain, ancestors_of_parent_eq_some hget' hparent, ih]
    rfl

theorem innermostType?_renameScopes :
    (tree.renameScopes h).innermostType? id = tree.innermostType? id := by
  rw [innermostType?, innermostType?, ancestors_renameScopes, List.findSome?_map]
  rfl

theorem openContours_renameScopes (depth : Nat) (scope : ScopeId) (index : Nat) :
    (tree.renameScopes h).openContours depth scope index =
      tree.openContours depth scope index := by
  induction depth generalizing scope index with
  | zero => rfl
  | succ depth ih =>
    rw [openContours, openContours, children_renameScopes]
    cases (tree.children scope)[index]? with
    | none => rfl
    | some child => exact ih child 0

/-! ## Lookups -/

theorem searchOutward_renameScopes (kind : NameType) (name : String) (innermost : Option String)
    (chain : List (ScopeId × Scope)) :
    searchOutward kind name innermost
        (chain.map fun entry => (entry.1, entry.2.renameScopes h)) =
      (searchOutward kind name innermost chain).map (QualifiedName.renameScopes h) := by
  induction chain generalizing innermost with
  | nil => rfl
  | cons entry chain ih =>
    obtain ⟨id, scope⟩ := entry
    have hfind : (scope.renameScopes h).find? kind name = scope.find? kind name := rfl
    have howner : (scope.renameScopes h).owner = scope.owner := rfl
    rw [List.map_cons, searchOutward, searchOutward, hfind, howner]
    cases scope.find? kind name with
    | none => exact ih _
    | some d =>
      show some _ = some _
      dsimp only
      split <;> rfl

theorem lookup_renameScopes (kind : NameType) (name : String) :
    (tree.renameScopes h).lookup id kind name =
      (tree.lookup id kind name).map (QualifiedName.renameScopes h) := by
  rw [lookup, lookup, ancestors_renameScopes, searchOutward_renameScopes]

theorem resolveMethod_renameScopes (name : String) :
    (tree.renameScopes h).resolveMethod id name =
      (tree.resolveMethod id name).map (QualifiedName.renameScopes h) :=
  tree.lookup_renameScopes h id .method name

theorem resolveType_renameScopes (name : String) :
    (tree.renameScopes h).resolveType id name =
      (tree.resolveType id name).map (QualifiedName.renameScopes h) :=
  tree.lookup_renameScopes h id .type name

theorem ownScopes_renameScopes :
    (tree.renameScopes h).ownScopes id =
      (tree.ownScopes id).map fun entry => (entry.1, entry.2.renameScopes h) := by
  rw [ownScopes, ownScopes, innermostType?_renameScopes, ancestors_renameScopes]
  cases tree.innermostType? id with
  | none => rfl
  | some owner =>
    dsimp only
    rw [List.dropWhile_map, List.takeWhile_map]
    rfl

theorem resolveOwnField_renameScopes (member : String) :
    (tree.renameScopes h).resolveOwnField id member =
      (tree.resolveOwnField id member).map (QualifiedName.renameScopes h) := by
  rw [resolveOwnField, resolveOwnField, ownScopes_renameScopes, List.findSome?_map,
    List.map_findSome?]
  congr 1
  funext ⟨number, scope⟩
  have hfind : (scope.renameScopes h).find? .identifier (Dotted.firstSegment member) =
    scope.find? .identifier (Dotted.firstSegment member) := rfl
  show Option.map _ ((scope.renameScopes h).find? _ _) = Option.map _ (Option.map _ _)
  rw [hfind, Option.map_map]
  rfl

theorem resolveIdentifier_renameScopes (name : String) :
    (tree.renameScopes h).resolveIdentifier id name =
      (tree.resolveIdentifier id name).map (QualifiedName.renameScopes h) := by
  unfold resolveIdentifier
  split
  · exact tree.resolveOwnField_renameScopes h id _
  · exact tree.lookup_renameScopes h id .identifier name

end ScopeTree

/-! ## Nodes -/

namespace Context

variable (ctx : Context) (scope : ScopeId)

theorem isOuterInstance?_renameScopes (outer : String) :
    (ctx.renameScopes h).isOuterInstance? scope outer = ctx.isOuterInstance? scope outer := by
  unfold isOuterInstance?
  rw [scopes_renameScopes, ScopeTree.resolveType_renameScopes, Option.map_map,
    ScopeTree.innermostType?_renameScopes]
  rfl

theorem ofFound_renameScopes {kind : NameType} (e : ResolveError)
    {f : QualifiedName kind → Occurrence}
    (hf : ∀ q, f (q.renameScopes h) = (f q).renameScopes h) (found : Option (QualifiedName kind)) :
    ofFound e f (found.map (QualifiedName.renameScopes h)) =
      (ofFound e f found).map (Option.map (Occurrence.renameScopes h)) := by
  cases found with
  | none => rfl
  | some q =>
    have henclosing : (q.renameScopes h).isEnclosing = q.isEnclosing := by
      obtain ⟨name, origin⟩ := q
      cases origin <;> rfl
    rw [Option.map_some, ofFound, ofFound, henclosing, hf]
    split <;> rfl

theorem identifier_renameScopes (position : SourcePosition) (text : String) :
    (ctx.renameScopes h).identifier scope position text =
      (ctx.identifier scope position text).map (Option.map (Occurrence.renameScopes h)) := by
  rw [identifier_eq_ofFound, identifier_eq_ofFound, scopes_renameScopes,
    ScopeTree.resolveIdentifier_renameScopes]
  exact ofFound_renameScopes h _ (fun _ => rfl) _

theorem calledMethod_renameScopes (position : SourcePosition) (name : String) :
    (ctx.renameScopes h).calledMethod scope position name =
      (ctx.calledMethod scope position name).map (Option.map (Occurrence.renameScopes h)) := by
  rw [calledMethod_eq_ofFound, calledMethod_eq_ofFound, scopes_renameScopes,
    ScopeTree.resolveMethod_renameScopes]
  exact ofFound_renameScopes h _ (fun _ => rfl) _

theorem checkReceiver_renameScopes (position : SourcePosition) (name : String)
    (receiver : Option Node) :
    (ctx.renameScopes h).checkReceiver scope position name receiver =
      ctx.checkReceiver scope position name receiver := by
  unfold checkReceiver
  simp only [isOuterInstance?_renameScopes]

theorem checkType_renameScopes (position : SourcePosition) (segments : List String) :
    (ctx.renameScopes h).checkType scope position segments =
      ctx.checkType scope position segments := by
  unfold checkType
  simp only [policy_renameScopes, scopes_renameScopes, ScopeTree.resolveType_renameScopes]
  split
  · rfl
  · rename_i simple
    cases ctx.scopes.resolveType scope simple <;> rfl
  · rfl

theorem namedAccess_renameScopes (node : Node) (first : String) :
    (ctx.renameScopes h).namedAccess scope node first =
      (ctx.namedAccess scope node first).map (Option.map (Occurrence.renameScopes h)) := by
  unfold namedAccess
  simp only [position_renameScopes, policy_renameScopes, scopes_renameScopes,
    ScopeTree.resolveIdentifier_renameScopes, ScopeTree.resolveType_renameScopes,
    Option.isSome_map, identifier_renameScopes]
  cases ctx.scopes.resolveIdentifier scope first with
  | some name => rfl
  | none =>
    show (if _ then _ else _) = Except.map _ (if _ then _ else _)
    split
    · rfl
    · cases node.text with
      | none => rfl
      | some text =>
        dsimp only
        split
        · cases ctx.policy.check (ctx.position node) ((node.qualifier?.bind Node.text).getD "") <;>
            rfl
        · rfl

theorem outerAccess_renameScopes (node : Node) (outer : String) :
    (ctx.renameScopes h).outerAccess scope node outer =
      (ctx.outerAccess scope node outer).map (Option.map (Occurrence.renameScopes h)) := by
  unfold outerAccess
  simp only [position_renameScopes, isOuterInstance?_renameScopes, identifier_renameScopes]
  cases ctx.isOuterInstance? scope outer with
  | none => rfl
  | some foreign => cases foreign <;> rfl

theorem fieldAccess_renameScopes (node : Node) :
    (ctx.renameScopes h).fieldAccess scope node =
      (ctx.fieldAccess scope node).map (Option.map (Occurrence.renameScopes h)) := by
  unfold fieldAccess
  simp only [namedAccess_renameScopes, outerAccess_renameScopes]
  split <;> rfl

/-- A node denotes the same, found in the renamed scope. -/
theorem denotes_renameScopes (node : Node) :
    (ctx.renameScopes h).denotes scope node =
      (ctx.denotes scope node).map (Option.map (Occurrence.renameScopes h)) := by
  have hnothing (outcome : Except ResolveError Unit) :
      (outcome.map fun _ => (none : Option Occurrence)).map
        (Option.map (Occurrence.renameScopes h)) = outcome.map fun _ => none := by
    cases outcome <;> rfl
  unfold denotes
  simp only [position_renameScopes, calledMethod_renameScopes, checkReceiver_renameScopes,
    identifier_renameScopes, checkType_renameScopes, fieldAccess_renameScopes]
  split
  · rfl
  · rw [hnothing]
  · rfl
  · rw [hnothing]
  · rfl
  · rfl

end Context

/-! ## Places -/

/-- The finding at a position, with its scope under another name. -/
def renameFinding (finding : SourcePosition × Occurrence) : SourcePosition × Occurrence :=
  (finding.1, finding.2.renameScopes h)

theorem NameTable.record_mapValues {kind : NameType} (table : NameTable kind)
    (position : SourcePosition) (name : QualifiedName kind) :
    NameTable.record (table.mapValues (QualifiedName.renameScopes h)) position
        (name.renameScopes h) =
      renameOutcome h (fun table : NameTable kind => table.mapValues (QualifiedName.renameScopes h))
        (table.record position name) := by
  unfold NameTable.record
  rw [OrderedMap.find?_mapValues]
  cases table.find? position with
  | none => exact congrArg Except.ok (table.mapValues_insert _ position name).symm
  | some existing => rfl

theorem Resolution.add_renameScopes (r : Resolution)
    (found : Option (SourcePosition × Occurrence)) :
    (r.renameScopes h).add (found.map (renameFinding h)) =
      renameOutcome h (Resolution.renameScopes h) (r.add found) := by
  match found with
  | none => rfl
  | some (position, .method name) =>
    show Except.map _ (NameTable.record (r.methods.mapValues _) position (name.renameScopes h)) =
      renameOutcome h _ ((r.methods.record position name).map _)
    rw [NameTable.record_mapValues]
    cases r.methods.record position name <;> rfl
  | some (position, .identifier name) =>
    show Except.map _ (NameTable.record (r.identifiers.mapValues _) position
      (name.renameScopes h)) = renameOutcome h _ ((r.identifiers.record position name).map _)
    rw [NameTable.record_mapValues]
    cases r.identifiers.record position name <;> rfl

/-- The root and the children of its scopes are scopes of the tree. -/
structure ScopeTree.Whole (tree : ScopeTree) : Prop where
  size_pos : 0 < tree.size
  lt_size : ∀ {id child}, child ∈ tree.children id → child < tree.size

theorem ScopeTree.whole_build (steps : List BuildStep) : (build steps).Whole :=
  have hlinked := (Builder.inOrder_start.run steps).linked
  ⟨hlinked.size_pos, fun hchild => (hlinked.lt_of_mem_children hchild).2⟩

namespace ScopeTree.Whole

variable {tree : ScopeTree} (hwhole : tree.Whole)

include hwhole

theorem openContours_lt {depth : Nat} {scope : ScopeId} {index : Nat} (hscope : scope < tree.size) :
    (∀ inner, tree.openContours depth scope index = .ok inner → inner < tree.size) ∧
      ∀ lacking, tree.openContours depth scope index = .error lacking → lacking < tree.size := by
  induction depth generalizing scope index with
  | zero =>
    constructor
    · intro inner hopen
      obtain rfl : scope = inner := Except.ok.inj hopen
      exact hscope
    · intro lacking hopen
      cases hopen
  | succ depth ih =>
    rw [openContours]
    cases hchild : (tree.children scope)[index]? with
    | none =>
      constructor
      · intro inner hopen
        cases hopen
      · intro lacking hopen
        obtain rfl : scope = lacking := Except.error.inj hopen
        exact hscope
    | some child => exact ih (hwhole.lt_size (List.mem_of_getElem? hchild))

theorem scopeWithin?_lt {node : Node} {outer scope : ScopeId} {taken : Nat} {p : Place}
    (houter : outer < tree.size) (hscope : node.scopeWithin? tree outer taken p = some scope) :
    scope < tree.size := by
  induction hn : p.length using Nat.strongRecOn generalizing p scope with
  | ind n ih =>
    subst hn
    cases habove : node.contourAbove? p with
    | none =>
      rw [Node.scopeWithin?_of_none habove] at hscope
      obtain rfl := Option.some.inj hscope
      exact houter
    | some contour =>
      rw [Node.scopeWithin?_of_some habove] at hscope
      obtain ⟨around, haround, hopen⟩ := Option.bind_eq_some_iff.mp hscope
      have hlt := ih _ (Node.length_contourAbove?_lt habove) haround rfl
      cases hresult : tree.openContours (node.contourDepthAt contour) around
          (node.contourNumber taken contour) with
      | error lacking =>
        rw [hresult] at hopen
        cases hopen
      | ok inner =>
        rw [hresult] at hopen
        obtain rfl : inner = scope := Option.some.inj hopen
        exact (hwhole.openContours_lt hlt).1 inner hresult

end ScopeTree.Whole

theorem Node.scopeWithin?_renameScopes (tree : ScopeTree) (node : Node) (outer : ScopeId)
    (taken : Nat) (p : Place) :
    node.scopeWithin? (tree.renameScopes h) outer taken p =
      node.scopeWithin? tree outer taken p := by
  induction hn : p.length using Nat.strongRecOn generalizing p with
  | ind n ih =>
    subst hn
    cases habove : node.contourAbove? p with
    | none => rw [scopeWithin?_of_none habove, scopeWithin?_of_none habove]
    | some contour =>
      rw [scopeWithin?_of_some habove, scopeWithin?_of_some habove,
        ih _ (length_contourAbove?_lt habove) contour rfl]
      simp only [ScopeTree.openContours_renameScopes]

namespace Context

variable {ctx : Context}

theorem visitIn_renameScopes (hwhole : ctx.scopes.Whole) {scope : ScopeId}
    (hscope : scope < ctx.scopes.size) (node : Node) (index : Nat) :
    (ctx.renameScopes h).visitIn node scope index =
      renameOutcome h (Option.map (renameFinding h)) (ctx.visitIn node scope index) := by
  have hopens : (ctx.renameScopes h).scopes.openContours node.kind.contourDepth scope index =
      ctx.scopes.openContours node.kind.contourDepth scope index :=
    ctx.scopes.openContours_renameScopes h _ scope index
  cases hopen : ctx.scopes.openContours node.kind.contourDepth scope index with
  | error lacking =>
    have hlacking := (hwhole.openContours_lt hscope).2 lacking hopen
    rw [visitIn_of_error (hopens.trans hopen), visitIn_of_error hopen, ScopeTree.lacksChild,
      ScopeTree.lacksChild, scopes_renameScopes, ScopeTree.name_renameScopes h _ _ hlacking,
      ScopeTree.children_renameScopes]
    rfl
  | ok inner =>
    have hfault : FaultsAt (ctx.position node) (ctx.denotesAt scope node) :=
      (ctx.faultsAt_denotes scope node).map _
    rw [visitIn_of_ok (hopens.trans hopen), visitIn_of_ok hopen, hfault.renameOutcome_eq,
      denotesAt, denotesAt, denotes_renameScopes]
    cases ctx.denotes scope node with
    | error e => rfl
    | ok occurrence => cases occurrence <;> rfl

theorem visitWithin_renameScopes (hwhole : ctx.scopes.Whole) {outer : ScopeId}
    (houter : outer < ctx.scopes.size) (root : Node) (taken : Nat) (p : Place) :
    (ctx.renameScopes h).visitWithin root outer taken p =
      renameOutcome h (Option.map (renameFinding h)) (ctx.visitWithin root outer taken p) := by
  unfold visitWithin
  rw [scopes_renameScopes, Node.scopeWithin?_renameScopes]
  cases root.at? p with
  | none => rfl
  | some node =>
    cases hscope : root.scopeWithin? ctx.scopes outer taken p with
    | none => rfl
    | some scope =>
      exact visitIn_renameScopes h hwhole (hwhole.scopeWithin?_lt houter hscope) node _

theorem recordVisit_renameScopes (hwhole : ctx.scopes.Whole) {outer : ScopeId}
    (houter : outer < ctx.scopes.size) (root : Node) (taken : Nat) (found : Resolution)
    (p : Place) :
    (ctx.renameScopes h).recordVisit root outer taken (found.renameScopes h) p =
      renameOutcome h (Resolution.renameScopes h) (ctx.recordVisit root outer taken found p) := by
  rw [recordVisit, visitWithin_renameScopes h hwhole houter]
  exact renameOutcome_bind h (found.add_renameScopes h)

end Context

/-- **The names of scopes are labels.** With other names, whatever they are, the scopes of a tree
answer every lookup as before, and a file resolves to the same or fails in the same way; what was
found in a scope or lacks in one is said under its other name, and what needs an enclosing instance
still does. -/
theorem resolveFile_renameScopes (h : String → String) (file : FileId) (root : Node)
    (steps : List ScopeTree.BuildStep) (policy : Policy) :
    let scopes := ScopeTree.build steps
    (∀ id, (scopes.renameScopes h).get? id =
      (scopes.get? id).map fun scope => { scope with name := h scope.name }) ∧
      resolveFile file root (scopes.renameScopes h) policy =
        renameOutcome h (Resolution.renameScopes h) (resolveFile file root scopes policy) ∧
      (∀ id kind name, (scopes.renameScopes h).lookup id kind name =
        (scopes.lookup id kind name).map (QualifiedName.renameScopes h)) ∧
      ∀ id member, (scopes.renameScopes h).resolveOwnField id member =
        (scopes.resolveOwnField id member).map (QualifiedName.renameScopes h) := by
  intro scopes
  refine ⟨scopes.get?_renameScopes h, ?_, scopes.lookup_renameScopes h,
    scopes.resolveOwnField_renameScopes h⟩
  have hwhole := ScopeTree.whole_build steps
  have hrecord (found : Resolution) (p : Place) :
      ((⟨file, scopes, policy⟩ : Context).renameScopes h).recordVisit root ScopeTree.root 0
          (found.renameScopes h) p =
        renameOutcome h (Resolution.renameScopes h)
          ((⟨file, scopes, policy⟩ : Context).recordVisit root ScopeTree.root 0 found p) :=
    Context.recordVisit_renameScopes h hwhole hwhole.size_pos root 0 found p
  rw [resolveFile_eq_foldlM, resolveFile_eq_foldlM]
  exact renameOutcome_foldlM h hrecord root.visits .empty

end NameResolution
