import NameResolution.Proofs.Coverage
import NameResolution.Proofs.Findings

/-!
# What a node has passed

When a file resolves, every node that is visited denotes something or nothing without an error. The
first part says what that means for each thing a node can be. The second part brings it to the nodes
on the chain of a field access, so that every node of the tree is reached (`Context.reached`).
-/

namespace NameResolution

def Occurrence.origin : Occurrence → Origin
  | .method name => name.origin
  | .identifier name => name.origin

/-- The name under which the policy checks a type. -/
def ScopeTree.checkedName (scopes : ScopeTree) (scope : ScopeId) : List String → String
  | [simple] => ((scopes.resolveType scope simple).map QualifiedName.name).getD simple
  | segments => Dotted.join segments

namespace Context

variable {ctx : Context} {scope : ScopeId} {position : SourcePosition} {node : Node}
  {occurrence : Option Occurrence}

/-! ## Without an error -/

/-- A name that was found passes unless it needs an enclosing instance. -/
def ofFound {kind : NameType} (e : ResolveError) (f : QualifiedName kind → Occurrence) :
    Option (QualifiedName kind) → Except ResolveError (Option Occurrence)
  | none => .ok none
  | some name => if name.isEnclosing then .error e else .ok (some (f name))

theorem ofFound_eq_ok_iff {kind : NameType} {e : ResolveError} {f : QualifiedName kind → Occurrence}
    {found : Option (QualifiedName kind)} :
    ofFound e f found = .ok occurrence ↔
      (∀ q, found = some q → q.isEnclosing = false) ∧ occurrence = found.map f := by
  cases found with
  | none =>
    constructor
    · intro h
      exact ⟨nofun, (Except.ok.inj h).symm⟩
    · rintro ⟨-, rfl⟩
      rfl
  | some q =>
    rw [ofFound]
    constructor
    · intro h
      split at h
      · cases h
      · rename_i hq
        refine ⟨fun q' hq' => ?_, (Except.ok.inj h).symm⟩
        obtain rfl := Option.some.inj hq'
        exact Bool.eq_false_iff.mpr hq
    · rintro ⟨hq, rfl⟩
      rw [hq q rfl]
      rfl

theorem identifier_eq_ofFound (text : String) :
    ctx.identifier scope position text =
      ofFound (.outerInstance position text .field) .identifier
        (ctx.scopes.resolveIdentifier scope text) := by
  unfold identifier
  cases ctx.scopes.resolveIdentifier scope text <;> rfl

theorem calledMethod_eq_ofFound (name : String) :
    ctx.calledMethod scope position name =
      ofFound (.outerInstance position name .method) .method
        (ctx.scopes.resolveMethod scope name) := by
  unfold calledMethod
  cases ctx.scopes.resolveMethod scope name <;> rfl

theorem identifier_eq_ok_iff {text : String} :
    ctx.identifier scope position text = .ok occurrence ↔
      (∀ q, ctx.scopes.resolveIdentifier scope text = some q → q.isEnclosing = false) ∧
        occurrence = (ctx.scopes.resolveIdentifier scope text).map .identifier := by
  rw [identifier_eq_ofFound, ofFound_eq_ok_iff]

theorem calledMethod_eq_ok_iff {name : String} :
    ctx.calledMethod scope position name = .ok occurrence ↔
      (∀ q, ctx.scopes.resolveMethod scope name = some q → q.isEnclosing = false) ∧
        occurrence = (ctx.scopes.resolveMethod scope name).map .method := by
  rw [calledMethod_eq_ofFound, ofFound_eq_ok_iff]

theorem isOuterInstance?_ne_true_iff {outer : String} :
    ctx.isOuterInstance? scope outer ≠ some true ↔
      ∀ type, ctx.scopes.resolveType scope outer = some type →
        ctx.scopes.innermostType? scope = some type.name := by
  unfold isOuterInstance?
  cases ctx.scopes.resolveType scope outer <;> simp

theorem checkReceiver_eq_ok_iff {name : String} {receiver : Option Node} :
    ctx.checkReceiver scope position name receiver = .ok () ↔
      ∀ outer, receiver.map Node.kind = some (.this (some outer)) →
        ctx.isOuterInstance? scope outer ≠ some true := by
  rw [checkReceiver.eq_def]
  split
  · rename_i outer start children
    by_cases h : ctx.isOuterInstance? scope outer = some true <;> simp [h]
  · rename_i hother
    refine ⟨fun _ outer houter => ?_, fun _ => rfl⟩
    obtain ⟨⟨kind, start, children⟩, rfl, hkind⟩ := Option.map_eq_some_iff.mp houter
    exact (hother outer start children (hkind ▸ rfl)).elim

theorem checkType_eq_ok_iff {segments : List String} (hsegments : segments ≠ []) :
    ctx.checkType scope position segments = .ok () ↔
      ctx.policy.accepts (ctx.scopes.checkedName scope segments) = true := by
  match segments with
  | [simple] =>
    rw [checkType, ScopeTree.checkedName]
    cases ctx.scopes.resolveType scope simple <;> exact Policy.check_eq_ok_iff ..
  | first :: second :: rest => exact Policy.check_eq_ok_iff ..

/-- What `first.rest` denotes without an error: what `first` denotes, or nothing, or what the whole
text denotes when the policy accepts its qualifier. -/
theorem namedAccess_eq_ok {first : String}
    (h : ctx.namedAccess scope node first = .ok occurrence) :
    (ctx.scopes.resolveIdentifier scope first).isSome ∧
        ctx.identifier scope (ctx.position node) first = .ok occurrence ∨
      ctx.scopes.resolveIdentifier scope first = none ∧
        ((ctx.scopes.resolveType scope first).isSome ∧ occurrence = none ∨
          node.text = none ∧ occurrence = none ∨
            ∃ text, node.text = some text ∧
              (first ≠ "this" →
                ctx.policy.accepts ((node.qualifier?.bind Node.text).getD "") = true) ∧
              ctx.identifier scope (ctx.position node) text = .ok occurrence) := by
  unfold namedAccess at h
  dsimp only at h
  cases hident : ctx.scopes.resolveIdentifier scope first with
  | some q =>
    rw [hident] at h
    exact .inl ⟨rfl, h⟩
  | none =>
    rw [hident] at h
    refine .inr ⟨rfl, ?_⟩
    dsimp only at h
    split at h
    · rename_i htype
      exact .inl ⟨htype, (Except.ok.inj h).symm⟩
    · split at h
      · rename_i htext
        exact .inr (.inl ⟨htext, (Except.ok.inj h).symm⟩)
      · rename_i text htext
        refine .inr (.inr ⟨text, htext, ?_⟩)
        split at h
        · obtain ⟨_, hcheck, hrest⟩ := bind_eq_ok_iff.mp h
          exact ⟨fun _ => (Policy.check_eq_ok_iff ..).mp hcheck, hrest⟩
        · rename_i hthis
          exact ⟨fun hne => absurd hne hthis, h⟩

theorem outerAccess_eq_ok {outer : String} (h : ctx.outerAccess scope node outer = .ok occurrence) :
    ctx.isOuterInstance? scope outer ≠ some true ∧
      (occurrence = none ∨
        ∃ text, ctx.identifier scope (ctx.position node) text = .ok occurrence) := by
  unfold outerAccess at h
  dsimp only at h
  split at h
  · rename_i hnone
    exact ⟨by simp [hnone], .inl (Except.ok.inj h).symm⟩
  · cases h
  · rename_i hsome
    exact ⟨by simp [hsome], .inr ⟨_, h⟩⟩

theorem fieldAccess_of_name {first : String}
    (hkind : node.leftmost?.map Node.kind = some (.name first)) :
    ctx.fieldAccess scope node = ctx.namedAccess scope node first := by
  rw [fieldAccess, hkind]

theorem fieldAccess_of_outerThis {outer : String}
    (hkind : node.leftmost?.map Node.kind = some (.this (some outer))) :
    ctx.fieldAccess scope node = ctx.outerAccess scope node outer := by
  rw [fieldAccess, hkind]

/-- What a node denotes is never found through an enclosing instance. -/
theorem isEnclosing_of_denotes {found : Occurrence}
    (h : ctx.denotes scope node = .ok (some found)) : found.origin.isEnclosing = false := by
  have ident {position : SourcePosition} {text : String}
      (h : ctx.identifier scope position text = .ok (some found)) :
      found.origin.isEnclosing = false := by
    obtain ⟨hq, heq⟩ := identifier_eq_ok_iff.mp h
    obtain ⟨q, hsome, rfl⟩ := Option.map_eq_some_iff.mp heq.symm
    exact hq q hsome
  have named {first : String} (h : ctx.namedAccess scope node first = .ok (some found)) :
      found.origin.isEnclosing = false := by
    rcases namedAccess_eq_ok h with ⟨-, h⟩ | ⟨-, ⟨-, h⟩ | ⟨-, h⟩ | ⟨text, -, -, h⟩⟩
    · exact ident h
    · cases h
    · cases h
    · exact ident h
  unfold denotes at h
  dsimp only at h
  split at h
  · obtain ⟨hq, heq⟩ := calledMethod_eq_ok_iff.mp h
    obtain ⟨q, hsome, rfl⟩ := Option.map_eq_some_iff.mp heq.symm
    exact hq q hsome
  · obtain ⟨_, -, h⟩ := map_eq_ok_iff.mp h
    cases h
  · exact ident h
  · obtain ⟨_, -, h⟩ := map_eq_ok_iff.mp h
    cases h
  · unfold fieldAccess at h
    split at h
    · exact named h
    · exact named h
    · obtain ⟨-, h | ⟨text, h⟩⟩ := outerAccess_eq_ok h
      · cases h
      · exact ident h
    · cases h
  · cases h

/-! ## Every node -/

/-- A node denotes something or nothing in a scope, or the field access does on whose chain it
stands. -/
inductive Reached (ctx : Context) (root : Node) (p : Place) (node : Node) (scope : ScopeId) : Prop
  | visited {occurrence : Option Occurrence} (hdenotes : ctx.denotes scope node = .ok occurrence)
  | onChain {top : Place} {access : Node} {depth : Nat} {occurrence : Option Occurrence}
      (hchain : root.OnChain p node top access depth)
      (hdenotes : ctx.denotes scope access = .ok occurrence)

variable {root : Node} {p : Place}

/-- **A resolved file has reached every node in the scope of its place.** -/
theorem reached (hconv : root.FollowsConventions) (hpass : ∀ p, root.Visited p → ctx.Passes root p)
    (hnode : root.at? p = some node) :
    ∃ scope, ctx.scopeAt? root p = some scope ∧ ctx.Reached root p node scope := by
  rcases Node.visited_or_onChain hconv hnode with hp | ⟨top, access, depth, hchain⟩
  · obtain ⟨node', scope, hnode', hscope, -, occurrence, hdenotes⟩ := hpass p hp
    obtain rfl : node = node' := Option.some.inj (hnode.symm.trans hnode')
    exact ⟨scope, hscope, .visited hdenotes⟩
  · obtain ⟨node', scope, hnode', hscope, -, occurrence, hdenotes⟩ := hpass top hchain.visited
    obtain rfl : access = node' := Option.some.inj (hchain.at?_top.symm.trans hnode')
    rw [scopeAt?] at hscope
    rw [scopeAt?, Node.scopeWithin?_congr hchain.contourAbove?_eq]
    exact ⟨scope, hscope, .onChain hchain hdenotes⟩

/-- A node that is neither a field access nor the start of a path is visited. -/
theorem Reached.denotes (h : ctx.Reached root p node scope)
    (haccess : node.kind.isFieldAccess = false) (hstart : node.kind.startsPath = false) :
    ∃ occurrence, ctx.denotes scope node = .ok occurrence := by
  cases h with
  | visited hdenotes => exact ⟨_, hdenotes⟩
  | onChain hchain _ =>
    rcases hchain.kind with hkind | hkind
    · cases haccess.symm.trans hkind
    · cases hstart.symm.trans hkind

theorem denotes_eq_fieldAccess {value : Node} (h : node.leftmost? = some value) :
    ctx.denotes scope node = ctx.fieldAccess scope node := by
  obtain ⟨kind, start, children⟩ := node
  cases kind with
  | fieldAccess field => rfl
  | _ => cases h

/-- Of a chain of field accesses, the one that is visited has the same leftmost qualifier. -/
theorem Reached.fieldAccess {value : Node} (h : ctx.Reached root p node scope)
    (hleft : node.leftmost? = some value) :
    ∃ access occurrence, access.leftmost? = some value ∧
      ctx.fieldAccess scope access = .ok occurrence := by
  cases h with
  | visited hdenotes => exact ⟨node, _, hleft, denotes_eq_fieldAccess hleft ▸ hdenotes⟩
  | onChain hchain hdenotes =>
    rename_i top access depth occurrence
    obtain ⟨q, hq, hend⟩ := Option.map_eq_some_iff.mp hleft
    have hleft' : access.leftmost? = some value := by
      rw [hchain.leftmost?_eq, hchain.chainEnd_eq, Node.chainEnd_of_qualifier?_eq_some hq, hend]
    exact ⟨access, occurrence, hleft', denotes_eq_fieldAccess hleft' ▸ hdenotes⟩

end Context

end NameResolution
