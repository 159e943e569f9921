import NameResolution.Proofs.SameAnswers
import NameResolution.Proofs.WalkStep

/-!
# Walks in parallel

Two walks of one syntax tree can differ in the file, in where the nodes start and in the scope
trees. They stay side by side as long as they stand in scopes that answer alike (`Parallel`): then
each node denotes the same for both (`Parallel.denotes`), and so the walks find the same
(`Parallel.walk`, `Parallel.resolveFile`).

Outcomes need not be the same. An `ErrorMatch` says which errors go together, and with which ones a
walk may stop whatever the other walk does.
-/

namespace NameResolution

/-- Both outcomes are values that go together, or both are errors that do. -/
inductive Agree {α β : Type} (errors : ResolveError → ResolveError → Prop)
    (values : α → β → Prop) : Except ResolveError α → Except ResolveError β → Prop where
  | ok {a : α} {b : β} (h : values a b) : Agree errors values (.ok a) (.ok b)
  | error {e e' : ResolveError} (h : errors e e') : Agree errors values (.error e) (.error e')

theorem Agree.eq {α : Type} {x y : Except ResolveError α} (h : Agree Eq Eq x y) : x = y := by
  cases h with
  | ok h => rw [h]
  | error h => rw [h]

/-- The errors of two walks that go together, and those that stop one walk alone. -/
structure ErrorMatch where
  pairs : ResolveError → ResolveError → Prop
  stopsFirst : ResolveError → Prop
  stopsSecond : ResolveError → Prop

namespace ErrorMatch

/-- The outcomes agree, unless one of the walks has stopped alone. -/
def InStep (m : ErrorMatch) {α β : Type} (values : α → β → Prop) (x : Except ResolveError α)
    (y : Except ResolveError β) : Prop :=
  Agree m.pairs values x y ∨ (∃ e, x = .error e ∧ m.stopsFirst e) ∨
    ∃ e, y = .error e ∧ m.stopsSecond e

variable {m : ErrorMatch} {α β γ δ : Type} {values : α → β → Prop} {results : γ → δ → Prop}
  {x : Except ResolveError α} {y : Except ResolveError β}

theorem InStep.ok {a : α} {b : β} (h : values a b) : m.InStep values (.ok a) (.ok b) :=
  .inl (.ok h)

theorem InStep.error {e e' : ResolveError} (h : m.pairs e e') :
    m.InStep values (.error e) (.error e') :=
  .inl (.error h)

theorem InStep.refl (hpairs : ∀ e, m.pairs e e) (x : Except ResolveError α) :
    m.InStep Eq x x := by
  cases x with
  | ok a => exact .ok rfl
  | error e => exact .error (hpairs e)

theorem InStep.bind {f : α → Except ResolveError γ} {g : β → Except ResolveError δ}
    (h : m.InStep values x y) (hnext : ∀ a b, values a b → m.InStep results (f a) (g b)) :
    m.InStep results (x >>= f) (y >>= g) := by
  rcases h with (hvalues | herrors) | ⟨e, rfl, hstop⟩ | ⟨e, rfl, hstop⟩
  · exact hnext _ _ hvalues
  · exact .error herrors
  · exact .inr (.inl ⟨e, rfl, hstop⟩)
  · exact .inr (.inr ⟨e, rfl, hstop⟩)

theorem InStep.map {f : α → γ} {g : β → δ} (h : m.InStep values x y)
    (hnext : ∀ a b, values a b → results (f a) (g b)) :
    m.InStep results (x.map f) (y.map g) := by
  have hbind : m.InStep results (x >>= fun a => .ok (f a)) (y >>= fun b => .ok (g b)) :=
    h.bind fun a b hab => .ok (hnext a b hab)
  cases x <;> cases y <;> exact hbind

end ErrorMatch

/-! ## Other starts -/

namespace Node

mutual

/-- The tree with `g` applied to the start of every node. -/
def mapStart (g : LineCol → LineCol) : Node → Node
  | ⟨kind, start, children⟩ => ⟨kind, g start, mapStartAll g children⟩
termination_by structural node => node

/-- The trees with `g` applied to the start of every node. -/
def mapStartAll (g : LineCol → LineCol) : List Node → List Node
  | [] => []
  | node :: rest => mapStart g node :: mapStartAll g rest
termination_by structural nodes => nodes

end

variable (g : LineCol → LineCol) (node : Node)

theorem mapStartAll_eq_map (nodes : List Node) : mapStartAll g nodes = nodes.map (mapStart g) := by
  induction nodes with
  | nil => rfl
  | cons node rest ih => rw [mapStartAll, ih, List.map_cons]

@[simp] theorem kind_mapStart : (node.mapStart g).kind = node.kind := by
  cases node
  rfl

@[simp] theorem start_mapStart : (node.mapStart g).start = g node.start := by
  cases node
  rfl

@[simp] theorem children_mapStart :
    (node.mapStart g).children = node.children.map (mapStart g) := by
  cases node
  exact mapStartAll_eq_map g _

theorem mapStart_id : node.mapStart id = node := by
  induction node using Node.induction with
  | step kind start children ih =>
    have hchildren : mapStartAll id children = children := by
      rw [mapStartAll_eq_map]
      exact (List.map_congr_left ih).trans (List.map_id' children)
    rw [mapStart, hchildren, id_eq]

theorem qualifier?_mapStart : (node.mapStart g).qualifier? = node.qualifier?.map (mapStart g) := by
  obtain ⟨kind, start, children⟩ := node
  cases kind <;> cases children <;> rfl

theorem chainEnd_mapStart : (node.mapStart g).chainEnd = node.chainEnd.mapStart g := by
  induction node using Node.induction with
  | step kind start children ih =>
    cases kind with
    | fieldAccess field =>
      cases children with
      | nil => rfl
      | cons q rest => exact ih q List.mem_cons_self
    | _ => rfl

theorem leftmost?_mapStart : (node.mapStart g).leftmost? = node.leftmost?.map (mapStart g) := by
  rw [leftmost?, leftmost?, qualifier?_mapStart, Option.map_map, Option.map_map]
  congr 1
  funext q
  exact chainEnd_mapStart g q

theorem text_mapStart : (node.mapStart g).text = node.text := by
  induction node using Node.induction with
  | step kind start children ih =>
    cases kind with
    | fieldAccess field =>
      cases children with
      | nil => rfl
      | cons q rest =>
        show ((q.mapStart g).text.map _) = q.text.map _
        rw [ih q List.mem_cons_self]
    | this qualifier => cases qualifier <;> rfl
    | _ => rfl

end Node

/-! ## Opening contours one by one -/

namespace Context

/-- The child of a scope, for a contour that starts at a place of the file. -/
def childAt (ctx : Context) (start : LineCol) (scope : ScopeId) (index : Nat) :
    Except ResolveError ScopeId :=
  match (ctx.scopes.children scope)[index]? with
  | some child => .ok child
  | none => .error (ctx.scopes.lacksChild ⟨ctx.file, start⟩ scope)

/-- The innermost of `depth` contours inside each other that start at a place of the file. -/
def contoursAt (ctx : Context) (start : LineCol) (depth : Nat) (scope : ScopeId) (index : Nat) :
    Except ResolveError ScopeId :=
  (ctx.scopes.openContours depth scope index).mapError (ctx.scopes.lacksChild ⟨ctx.file, start⟩)

variable {ctx : Context}

theorem contoursAt_succ (start : LineCol) (depth : Nat) (scope : ScopeId) (index : Nat) :
    ctx.contoursAt start (depth + 1) scope index =
      ctx.childAt start scope index >>= fun child => ctx.contoursAt start depth child 0 := by
  rw [contoursAt, ScopeTree.openContours, childAt]
  cases (ctx.scopes.children scope)[index]? <;> rfl

theorem walk_eq_contoursAt {node : Node} {more : Nat} (h : node.kind.contourDepth = more + 1)
    (outer : ScopeId) (taken : Nat) (found : Resolution) :
    ctx.walk node ⟨⟨outer, taken⟩, found⟩ =
      ctx.contoursAt node.start (more + 1) outer taken >>= fun inner =>
        ctx.walkAll node.children ⟨.onScope inner, found⟩ >>= fun inside =>
          pure ⟨⟨outer, taken + 1⟩, inside.found⟩ := by
  rw [walk_of_contourDepth h, contoursAt]
  cases ctx.scopes.openContours (more + 1) outer taken <;> rfl

end Context

/-! ## Two walks -/

/-- Two walks side by side, the second over starts that `g` has replaced: which scopes they stand in
at the same time, and which findings go together. -/
structure Parallel (m : ErrorMatch) (ctx ctx' : Context) (g : LineCol → LineCol) where
  scopes : ScopeId → ScopeId → Prop
  found : Resolution → Resolution → Prop
  policy_eq : ctx.policy = ctx'.policy
  outerInstance : ∀ start name access, m.pairs (.outerInstance ⟨ctx.file, start⟩ name access)
    (.outerInstance ⟨ctx'.file, g start⟩ name access)
  forbiddenName : ∀ start name, m.pairs (.forbiddenName ⟨ctx.file, start⟩ name)
    (.forbiddenName ⟨ctx'.file, g start⟩ name)
  answers : ∀ {s s' : ScopeId}, scopes s s' → ctx.scopes.SameAnswers ctx'.scopes s s'
  childAt : ∀ {s s' : ScopeId}, scopes s s' → ∀ start index,
    m.InStep scopes (ctx.childAt start s index) (ctx'.childAt (g start) s' index)
  record : ∀ {r r' : Resolution}, found r r' → ∀ start occurrence,
    m.InStep found (r.record ⟨ctx.file, start⟩ occurrence)
      (r'.record ⟨ctx'.file, g start⟩ occurrence)

namespace Parallel

variable {m : ErrorMatch} {ctx ctx' : Context} {g : LineCol → LineCol}
  (w : Parallel m ctx ctx' g)

/-! ### What a node denotes -/

include w

theorem check (start : LineCol) (name : String) :
    m.InStep Eq (ctx.policy.check ⟨ctx.file, start⟩ name)
      (ctx'.policy.check ⟨ctx'.file, g start⟩ name) := by
  rw [w.policy_eq, Policy.check, Policy.check]
  split
  · exact .ok rfl
  · exact .error (w.forbiddenName start name)

variable {s s' : ScopeId} (h : w.scopes s s')
include h

theorem identifier (start : LineCol) (text : String) :
    m.InStep Eq (ctx.identifier s ⟨ctx.file, start⟩ text)
      (ctx'.identifier s' ⟨ctx'.file, g start⟩ text) := by
  rw [Context.identifier, Context.identifier, (w.answers h).identifier]
  cases ctx'.scopes.resolveIdentifier s' text with
  | none => exact .ok rfl
  | some q =>
    dsimp only
    split
    · exact .error (w.outerInstance start text .field)
    · exact .ok rfl

theorem calledMethod (start : LineCol) (name : String) :
    m.InStep Eq (ctx.calledMethod s ⟨ctx.file, start⟩ name)
      (ctx'.calledMethod s' ⟨ctx'.file, g start⟩ name) := by
  rw [Context.calledMethod, Context.calledMethod, (w.answers h).method]
  cases ctx'.scopes.resolveMethod s' name with
  | none => exact .ok rfl
  | some q =>
    dsimp only
    split
    · exact .error (w.outerInstance start name .method)
    · exact .ok rfl

theorem isOuterInstance? (outer : String) :
    ctx.isOuterInstance? s outer = ctx'.isOuterInstance? s' outer := by
  rw [Context.isOuterInstance?, Context.isOuterInstance?, (w.answers h).type,
    (w.answers h).innermostType?_eq]

theorem checkReceiver (start : LineCol) (name : String) (receiver : Option Node) :
    m.InStep Eq (ctx.checkReceiver s ⟨ctx.file, start⟩ name receiver)
      (ctx'.checkReceiver s' ⟨ctx'.file, g start⟩ name (receiver.map (Node.mapStart g))) := by
  cases receiver with
  | none => exact .ok rfl
  | some receiver =>
    obtain ⟨kind, own, children⟩ := receiver
    cases kind with
    | this qualifier =>
      cases qualifier with
      | none => exact .ok rfl
      | some outer =>
        show m.InStep Eq (if _ then _ else _) (if _ then _ else _)
        rw [w.isOuterInstance? h outer]
        split
        · exact .error (w.outerInstance start _ .method)
        · exact .ok rfl
    | _ => exact .ok rfl

theorem checkType (start : LineCol) (segments : List String) :
    m.InStep Eq (ctx.checkType s ⟨ctx.file, start⟩ segments)
      (ctx'.checkType s' ⟨ctx'.file, g start⟩ segments) := by
  match segments with
  | [] => exact .ok rfl
  | [simple] =>
    rw [Context.checkType, Context.checkType, (w.answers h).type]
    cases ctx'.scopes.resolveType s' simple with
    | none => exact w.check start simple
    | some type => exact w.check start type.name
  | first :: second :: rest => exact w.check start _

theorem namedAccess (node : Node) (first : String) :
    m.InStep Eq (ctx.namedAccess s node first)
      (ctx'.namedAccess s' (node.mapStart g) first) := by
  have hqualifier :
      (node.mapStart g).qualifier?.bind Node.text = node.qualifier?.bind Node.text := by
    rw [Node.qualifier?_mapStart, Option.bind_map]
    congr 1
    funext q
    exact Node.text_mapStart g q
  rw [Context.namedAccess, Context.namedAccess, Context.position, Context.position,
    Node.start_mapStart, Node.text_mapStart, hqualifier, (w.answers h).identifier,
    (w.answers h).type]
  dsimp only
  cases ctx'.scopes.resolveIdentifier s' first with
  | some q => exact w.identifier h node.start first
  | none =>
    dsimp only
    split
    · exact .ok rfl
    · cases node.text with
      | none => exact .ok rfl
      | some text =>
        dsimp only
        split
        · exact (w.check node.start _).bind fun _ _ _ => w.identifier h node.start text
        · exact w.identifier h node.start text

theorem outerAccess (node : Node) (outer : String) :
    m.InStep Eq (ctx.outerAccess s node outer)
      (ctx'.outerAccess s' (node.mapStart g) outer) := by
  rw [Context.outerAccess, Context.outerAccess, Context.position, Context.position,
    Node.start_mapStart, Node.text_mapStart, w.isOuterInstance? h]
  cases ctx'.isOuterInstance? s' outer with
  | none => exact .ok rfl
  | some foreign =>
    cases foreign with
    | true => exact .error (w.outerInstance node.start _ .field)
    | false => exact w.identifier h node.start _

theorem fieldAccess (node : Node) :
    m.InStep Eq (ctx.fieldAccess s node) (ctx'.fieldAccess s' (node.mapStart g)) := by
  have hkind : (node.mapStart g).leftmost?.map Node.kind = node.leftmost?.map Node.kind := by
    rw [Node.leftmost?_mapStart, Option.map_map]
    congr 1
    funext q
    exact Node.kind_mapStart g q
  rw [Context.fieldAccess, Context.fieldAccess, hkind]
  split
  · exact w.namedAccess h node _
  · exact w.namedAccess h node _
  · exact w.outerAccess h node _
  · exact .ok rfl

/-- A node denotes the same for both walks. -/
theorem denotes (node : Node) :
    m.InStep Eq (ctx.denotes s node) (ctx'.denotes s' (node.mapStart g)) := by
  rw [Context.denotes, Context.denotes, Context.position, Context.position, Node.kind_mapStart,
    Node.start_mapStart, Node.children_mapStart, List.head?_map]
  cases node.kind with
  | methodCall name hasReceiver =>
    cases hasReceiver with
    | false => exact w.calledMethod h node.start name
    | true => exact (w.checkReceiver h node.start name _).map fun _ _ _ => rfl
  | name ident => exact w.identifier h node.start ident
  | typeRef segments => exact (w.checkType h node.start segments).map fun _ _ _ => rfl
  | fieldAccess field => exact w.fieldAccess h node
  | _ => exact .ok rfl

omit h

/-! ### What the walks find -/

/-- The walks have come to scopes that go together, have taken as many children there, and have
found what goes together. -/
structure States (state state' : WalkState) : Prop where
  scope : w.scopes state.cursor.scope state'.cursor.scope
  taken : state.cursor.taken = state'.cursor.taken
  found : w.found state.found state'.found

variable {state state' : WalkState}

theorem contoursAt {s s' : ScopeId} (h : w.scopes s s') (start : LineCol) (depth index : Nat) :
    m.InStep w.scopes (ctx.contoursAt start depth s index)
      (ctx'.contoursAt (g start) depth s' index) := by
  induction depth generalizing s s' index with
  | zero => exact .ok h
  | succ depth ih =>
    rw [Context.contoursAt_succ, Context.contoursAt_succ]
    exact (w.childAt h start index).bind fun child child' hchild => ih hchild 0

theorem recordNode (h : w.States state state') (node : Node) :
    m.InStep w.States (ctx.recordNode node state) (ctx'.recordNode (node.mapStart g) state') := by
  rw [Context.recordNode, Context.recordNode]
  refine (w.denotes h.scope node).bind ?_
  rintro occurrence _ rfl
  cases occurrence with
  | none => exact .ok h
  | some occurrence =>
    dsimp only
    rw [Context.position, Context.position, Node.start_mapStart]
    refine (w.record h.found node.start occurrence).bind fun found found' hfound => ?_
    exact .ok ⟨h.scope, h.taken, hfound⟩

theorem walkAll {nodes : List Node}
    (hwalk : ∀ node ∈ nodes, ∀ {state state' : WalkState}, w.States state state' →
      m.InStep w.States (ctx.walk node state) (ctx'.walk (node.mapStart g) state'))
    (h : w.States state state') :
    m.InStep w.States (ctx.walkAll nodes state)
      (ctx'.walkAll (nodes.map (Node.mapStart g)) state') := by
  induction nodes generalizing state state' with
  | nil => exact .ok h
  | cons node rest ih =>
    rw [List.map_cons, Context.walkAll_cons, Context.walkAll_cons]
    refine (hwalk node List.mem_cons_self h).bind fun next next' hnext => ?_
    exact ih (fun n hn => hwalk n (List.mem_cons_of_mem _ hn)) hnext

/-- **Walks that start side by side stay side by side.** -/
theorem walk (node : Node) (h : w.States state state') :
    m.InStep w.States (ctx.walk node state) (ctx'.walk (node.mapStart g) state') := by
  induction node using Node.walkInduction generalizing state state' with
  | empty field start => exact .ok h
  | path field start q rest hend =>
    have hend' : (q.mapStart g).chainEnd.kind.startsPath = true := by
      rwa [Node.chainEnd_mapStart, Node.kind_mapStart]
    rw [Context.walk_of_startsPath hend]
    show m.InStep _ _ (ctx'.walk ⟨.fieldAccess field, g start, q.mapStart g :: _⟩ state')
    rw [Context.walk_of_startsPath hend']
    exact w.recordNode h ⟨.fieldAccess field, start, q :: rest⟩
  | computed field start q rest hend ih =>
    have hend' : (q.mapStart g).chainEnd.kind.startsPath = false := by
      rwa [Node.chainEnd_mapStart, Node.kind_mapStart]
    rw [Context.walk_computed hend]
    show m.InStep _ _ (ctx'.walk ⟨.fieldAccess field, g start, q.mapStart g :: _⟩ state')
    rw [Context.walk_computed hend']
    exact ih h
  | inner node hkind ih =>
    have hwalk : ∀ child ∈ node.children, ∀ {state state' : WalkState}, w.States state state' →
        m.InStep w.States (ctx.walk child state) (ctx'.walk (child.mapStart g) state') :=
      fun child hchild _ _ => ih child hchild
    have hkind' : (node.mapStart g).kind.isFieldAccess = false := by rwa [Node.kind_mapStart]
    cases hdepth : node.kind.contourDepth with
    | zero =>
      have hdepth' : (node.mapStart g).kind.contourDepth = 0 := by rwa [Node.kind_mapStart]
      rw [Context.walk_of_contourDepth_eq_zero hkind hdepth,
        Context.walk_of_contourDepth_eq_zero hkind' hdepth', Node.children_mapStart]
      exact (w.recordNode h node).bind fun next next' hnext => w.walkAll hwalk hnext
    | succ more =>
      obtain ⟨⟨outer, taken⟩, found⟩ := state
      obtain ⟨⟨outer', taken'⟩, found'⟩ := state'
      obtain rfl : taken = taken' := h.taken
      have hdepth' : (node.mapStart g).kind.contourDepth = more + 1 := by rwa [Node.kind_mapStart]
      rw [Context.walk_eq_contoursAt hdepth, Context.walk_eq_contoursAt hdepth',
        Node.children_mapStart, Node.start_mapStart]
      -- inside the contours both walks count from the first child on
      refine (w.contoursAt h.scope node.start (more + 1) taken).bind fun inner inner' hinner => ?_
      have hstart : w.States ⟨.onScope inner, found⟩ ⟨.onScope inner', found'⟩ :=
        ⟨hinner, rfl, h.found⟩
      refine (w.walkAll hwalk hstart).bind fun inside inside' hinside => ?_
      exact .ok ⟨h.scope, rfl, hinside.found⟩

theorem resolveFile (hroot : w.scopes ScopeTree.root ScopeTree.root)
    (hempty : w.found .empty .empty) (root : Node) :
    m.InStep w.found (resolveFile ctx.file root ctx.scopes ctx.policy)
      (resolveFile ctx'.file (root.mapStart g) ctx'.scopes ctx'.policy) := by
  have hstates : w.States ⟨.root, .empty⟩ ⟨.root, .empty⟩ := ⟨hroot, rfl, hempty⟩
  exact (w.walk root hstates).map fun state state' h => h.found

end Parallel

end NameResolution
