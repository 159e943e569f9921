import NameResolution.Proofs.Demand
import NameResolution.Proofs.Findings
import NameResolution.Proofs.NearestDeclaration
import NameResolution.Proofs.TransparentNodes
import NameResolution.Scope.Builder
import NameResolution.Syntax.Build

/-!
# Arguments beside an anonymous body

The creation `new T(args) { body }` opens the scope of its body before anything of it is walked. So
its type and its arguments are looked up in that scope, although they stand outside of the body:
the walk is that of the plain creation `new T(args)` inside the body, and then that of the body
(`Context.walk_newObject_some`).

Where the two scopes give the type and the arguments the same meaning, this makes no difference.
But an argument that names a non-static member of the class around the creation is taken for a
member of an enclosing instance, and the file is refused (`Context.denotes_name_of_hiddenBehind`,
`Context.denotes_call_of_hiddenBehind`). `Context.walk_newObject_args` puts this together.
-/

namespace NameResolution

namespace Node

mutual

/-- The nodes that a walk records in a tree without contours, in order. -/
def recorded : Node → List Node
  | ⟨.fieldAccess _, _, []⟩ => []
  | ⟨.fieldAccess field, start, q :: rest⟩ =>
    if q.chainEnd.kind.startsPath then [⟨.fieldAccess field, start, q :: rest⟩] else q.recorded
  | ⟨kind, start, children⟩ => ⟨kind, start, children⟩ :: recordedAll children
termination_by structural node => node

/-- The nodes that are recorded in trees one after the other. -/
def recordedAll : List Node → List Node
  | [] => []
  | node :: rest => node.recorded ++ recordedAll rest
termination_by structural nodes => nodes

end

theorem recorded_of_isFieldAccess_eq_false {node : Node} (h : node.kind.isFieldAccess = false) :
    node.recorded = node :: recordedAll node.children := by
  obtain ⟨kind, start, children⟩ := node
  cases kind <;> first | rfl | cases h

theorem demandAll_eq_nil_iff {nodes : List Node} :
    demandAll nodes = [] ↔ ∀ node ∈ nodes, node.demand = [] := by
  induction nodes with
  | nil => simp [demandAll]
  | cons node rest ih => rw [demandAll, List.append_eq_nil_iff, ih, List.forall_mem_cons]

/-- A tree without contours: the node opens none, and neither do its children. -/
theorem demand_eq_nil_iff {node : Node} (hkind : node.kind.isFieldAccess = false) :
    node.demand = [] ↔
      node.kind.contourDepth = 0 ∧ ∀ child ∈ node.children, child.demand = [] := by
  rw [demand_of_isFieldAccess_eq_false hkind, ← demandAll_eq_nil_iff]
  cases node.kind.contourDepth <;> simp [Contour.wrap]

end Node

namespace Context

variable {ctx : Context}

/-- Records what a node denotes in a given scope. -/
def recordIn (ctx : Context) (scope : ScopeId) (found : Resolution) (node : Node) :
    Except ResolveError Resolution :=
  ctx.denotesAt scope node >>= found.add

/-! ## Trees without contours -/

theorem walkAll_of_walk {nodes : List Node} {cursor : ScopeCursor}
    (hwalk : ∀ node ∈ nodes, ∀ found, ctx.walk node ⟨cursor, found⟩ =
      WalkState.mk cursor <$> node.recorded.foldlM (ctx.recordIn cursor.scope) found)
    (found : Resolution) :
    ctx.walkAll nodes ⟨cursor, found⟩ =
      WalkState.mk cursor <$>
        (Node.recordedAll nodes).foldlM (ctx.recordIn cursor.scope) found := by
  induction nodes generalizing found with
  | nil => rfl
  | cons node rest ih =>
    obtain ⟨hnode, hrest⟩ := List.forall_mem_cons.mp hwalk
    rw [walkAll_cons, hnode, Node.recordedAll, List.foldlM_append, bind_map_left, map_bind]
    exact congrArg _ (funext fun next => ih hrest next)

/-- A tree without contours is walked in one scope. -/
theorem walk_of_demand_eq_nil {node : Node} (h : node.demand = []) (cursor : ScopeCursor)
    (found : Resolution) :
    ctx.walk node ⟨cursor, found⟩ =
      WalkState.mk cursor <$> node.recorded.foldlM (ctx.recordIn cursor.scope) found := by
  induction node using Node.walkInduction generalizing found with
  | empty field start => rfl
  | path field start q rest hend =>
    have hrecorded : Node.recorded ⟨.fieldAccess field, start, q :: rest⟩ =
        [⟨.fieldAccess field, start, q :: rest⟩] := by
      rw [Node.recorded, if_pos hend]
    rw [walk_of_startsPath hend, recordNode_eq, hrecorded, List.foldlM_cons]
    simp only [List.foldlM_nil, bind_pure]
    rfl
  | computed field start q rest hend ih =>
    have hrecorded : Node.recorded ⟨.fieldAccess field, start, q :: rest⟩ = q.recorded := by
      rw [Node.recorded, hend, if_neg Bool.false_ne_true]
    have hdemand : Node.demand ⟨.fieldAccess field, start, q :: rest⟩ = q.demand := by
      rw [Node.demand, hend, if_neg Bool.false_ne_true]
    rw [walk_computed hend, hrecorded, ih (hdemand ▸ h)]
  | inner node hkind ih =>
    obtain ⟨hdepth, hchildren⟩ := (Node.demand_eq_nil_iff hkind).mp h
    rw [walk_of_contourDepth_eq_zero hkind hdepth, recordNode_eq,
      Node.recorded_of_isFieldAccess_eq_false hkind, List.foldlM_cons, bind_map_left, map_bind]
    refine congrArg _ (funext fun next => ?_)
    exact walkAll_of_walk (fun child hchild found => ih child hchild (hchildren child hchild) found)
      next

theorem walkAll_of_demand_eq_nil {nodes : List Node} (h : ∀ node ∈ nodes, node.demand = [])
    (cursor : ScopeCursor) (found : Resolution) :
    ctx.walkAll nodes ⟨cursor, found⟩ =
      WalkState.mk cursor <$> (Node.recordedAll nodes).foldlM (ctx.recordIn cursor.scope) found :=
  walkAll_of_walk (fun node hnode found => walk_of_demand_eq_nil (h node hnode) cursor found) found

/-- Only what the nodes denote in a scope counts. -/
theorem foldlM_recordIn_congr {scope scope' : ScopeId} {nodes : List Node}
    (h : ∀ node ∈ nodes, ctx.denotes scope node = ctx.denotes scope' node) (found : Resolution) :
    nodes.foldlM (ctx.recordIn scope) found = nodes.foldlM (ctx.recordIn scope') found := by
  induction nodes generalizing found with
  | nil => rfl
  | cons node rest ih =>
    obtain ⟨hnode, hrest⟩ := List.forall_mem_cons.mp h
    have hrecord : ctx.recordIn scope found node = ctx.recordIn scope' found node := by
      unfold recordIn denotesAt
      rw [hnode]
    rw [List.foldlM_cons, List.foldlM_cons, hrecord]
    exact congrArg _ (funext fun next => ih hrest next)

/-! ## Creations -/

theorem walk_newObject_none (start : LineCol) (type : Node) (args : List Node)
    (state : WalkState) :
    ctx.walk (.newObject start type args none) state = ctx.walkAll (type :: args) state := by
  rw [walk_of_isTransparent rfl]
  show ctx.walkAll (type :: (args ++ [])) state = _
  rw [List.append_nil]

/-- **A creation with a body is walked as the plain creation, but in the scope of its body.** -/
theorem walk_newObject_some {outer inner : ScopeId} {taken : Nat}
    (hinner : (ctx.scopes.children outer)[taken]? = some inner) (start : LineCol) (type : Node)
    (args body : List Node) (found : Resolution) :
    ctx.walk (.newObject start type args (some body)) ⟨⟨outer, taken⟩, found⟩ =
      ctx.walk (.newObject start type args none) ⟨.onScope inner, found⟩ >>= fun created =>
        ctx.walkAll body created >>= fun inside => pure ⟨⟨outer, taken + 1⟩, inside.found⟩ := by
  have hopen : ctx.scopes.openContours 1 outer taken = .ok inner := by
    rw [ScopeTree.openContours, hinner]
    rfl
  have hdepth : (Node.newObject start type args (some body)).kind.contourDepth = 0 + 1 := rfl
  have hwalk := ctx.walk_of_contourDepth hdepth outer taken found
  rw [hopen] at hwalk
  rw [hwalk, walk_newObject_none, ← bind_assoc, ← walkAll_append]
  rfl

end Context

/-! ## Members of the class around -/

namespace ScopeTree

/-- Seen from the scope of a body, the name is a member of another type: the body does not declare
it, and outside of the body the nearest declaration is a non-static member of a type that is not
the type of the body. -/
def HiddenBehind (tree : ScopeTree) (body outer : ScopeId) (kind : NameType) (name : String) :
    Prop :=
  ∃ scope owner, tree.get? body = some scope ∧ scope.parent = some outer ∧
    scope.owner = some owner ∧ scope.find? kind name = none ∧
    ∃ around d, tree.DeclaresNearest outer kind name around d ∧ around.owner ≠ none ∧
      around.owner ≠ some owner ∧ d.needsInstance = true

/-- The lookup from the body comes to the member of the other type. -/
theorem HiddenBehind.lookup_eq {tree : ScopeTree} {body outer : ScopeId} {kind : NameType}
    {name : String} (h : tree.HiddenBehind body outer kind name) :
    ∃ qualified, tree.lookup body kind name = some ⟨qualified, .enclosing⟩ := by
  obtain ⟨scope, owner, hget, hparent, howner, hhere, around, d, hnearest, htyped, hother,
    hmember⟩ := h
  obtain ⟨hfind, passed, s, rest, hchain, hpassed⟩ := declaresNearest_iff.mp hnearest
  have hchain' : tree.ancestors body = ((body, scope) :: passed) ++ (s, around) :: rest := by
    rw [ancestors_of_parent_eq_some hget hparent, hchain, List.cons_append]
  have hinnermost : tree.innermostType? body = some owner := by
    rw [innermostType?, hchain', List.cons_append, List.findSome?_cons]
    simp only [howner]
  have horigin : tree.originFrom body around d = .enclosing := by
    refine if_pos ⟨htyped, hinnermost ▸ hother, ?_⟩
    simpa [Declaration.needsInstance] using hmember
  refine ⟨d.qualified, ?_⟩
  rw [lookup_of_ancestors hchain' (List.forall_mem_cons.mpr ⟨hhere, hpassed⟩) hfind, horigin]

end ScopeTree

namespace Context

variable {ctx : Context} {outer inner : ScopeId} {node : Node} {name : String}

theorem denotes_name_of_hiddenBehind (hkind : node.kind = .name name)
    (hthis : ¬ "this.".toList <+: name.toList)
    (h : ctx.scopes.HiddenBehind inner outer .identifier name) :
    ctx.denotes inner node = .error (.outerInstance (ctx.position node) name .field) := by
  obtain ⟨qualified, hlookup⟩ := h.lookup_eq
  obtain ⟨kind, start, children⟩ := node
  obtain rfl : kind = .name name := hkind
  show ctx.identifier inner _ name = _
  unfold identifier
  rw [ScopeTree.resolveIdentifier_eq_lookup hthis, hlookup]
  rfl

theorem denotes_call_of_hiddenBehind (hkind : node.kind = .methodCall name false)
    (h : ctx.scopes.HiddenBehind inner outer .method name) :
    ctx.denotes inner node = .error (.outerInstance (ctx.position node) name .method) := by
  obtain ⟨qualified, hlookup⟩ := h.lookup_eq
  obtain ⟨kind, start, children⟩ := node
  obtain rfl : kind = .methodCall name false := hkind
  show ctx.calledMethod inner _ name = _
  unfold calledMethod ScopeTree.resolveMethod
  rw [hlookup]
  rfl

/-- **What becomes of the type and the arguments of a creation.** Where they open no contour, a
plain creation records them as seen from the scope around it, and a creation with a body as seen
from the scope of the body, before it walks the body. The two agree where the type and the arguments
denote the same from both scopes. But a name or a call of a member that is hidden behind the body
is refused, if the walk comes to it. -/
theorem walk_newObject_args {type : Node} {args : List Node} {outer inner : ScopeId} {taken : Nat}
    (hplain : ∀ node ∈ type :: args, node.demand = [])
    (hinner : (ctx.scopes.children outer)[taken]? = some inner) (start : LineCol)
    (body : List Node) (found : Resolution) :
    let used := Node.recordedAll (type :: args)
    let plain := ctx.walk (.newObject start type args none) ⟨⟨outer, taken⟩, found⟩
    let anonymous := ctx.walk (.newObject start type args (some body)) ⟨⟨outer, taken⟩, found⟩
    let walkBody := fun created => do
      let inside ← ctx.walkAll body ⟨.onScope inner, created⟩
      return WalkState.mk ⟨outer, taken + 1⟩ inside.found
    plain = WalkState.mk ⟨outer, taken⟩ <$> used.foldlM (ctx.recordIn outer) found ∧
    anonymous = used.foldlM (ctx.recordIn inner) found >>= walkBody ∧
    ((∀ node ∈ used, ctx.denotes inner node = ctx.denotes outer node) →
      anonymous = plain >>= fun created => walkBody created.found) ∧
    ∀ before node after kept name, used = before ++ node :: after →
      before.foldlM (ctx.recordIn inner) found = .ok kept →
      (node.kind = .name name → ¬ "this.".toList <+: name.toList →
        ctx.scopes.HiddenBehind inner outer .identifier name →
        anonymous = .error (.outerInstance (ctx.position node) name .field)) ∧
      (node.kind = .methodCall name false → ctx.scopes.HiddenBehind inner outer .method name →
        anonymous = .error (.outerInstance (ctx.position node) name .method)) := by
  intro used plain anonymous walkBody
  have hwalkPlain : plain = WalkState.mk ⟨outer, taken⟩ <$>
      used.foldlM (ctx.recordIn outer) found := by
    show ctx.walk _ _ = _
    rw [walk_newObject_none, walkAll_of_demand_eq_nil hplain]
  have hwalkAnonymous : anonymous = used.foldlM (ctx.recordIn inner) found >>= walkBody := by
    show ctx.walk _ _ = _
    rw [walk_newObject_some hinner, walk_newObject_none, walkAll_of_demand_eq_nil hplain,
      bind_map_left]
    rfl
  have hrefused {before after : List Node} {node : Node} {kept : Resolution} {e : ResolveError}
      (hused : used = before ++ node :: after)
      (hbefore : before.foldlM (ctx.recordIn inner) found = .ok kept)
      (hnode : ctx.denotes inner node = .error e) : anonymous = .error e := by
    have hrecord : ctx.recordIn inner kept node = .error e := by
      unfold recordIn denotesAt
      rw [hnode]
      rfl
    rw [hwalkAnonymous, hused, List.foldlM_append, hbefore]
    show (List.foldlM (ctx.recordIn inner) kept (node :: after)) >>= walkBody = _
    rw [List.foldlM_cons, hrecord]
    rfl
  refine ⟨hwalkPlain, hwalkAnonymous, fun hsame => ?_, ?_⟩
  · rw [hwalkPlain, hwalkAnonymous, foldlM_recordIn_congr hsame, bind_map_left]
  · intro before node after kept name hused hbefore
    exact ⟨fun hkind hthis hhidden =>
        hrefused hused hbefore (denotes_name_of_hiddenBehind hkind hthis hhidden),
      fun hkind hhidden => hrefused hused hbefore (denotes_call_of_hiddenBehind hkind hhidden)⟩

end Context

/-- A method of a class that creates an object, with a field of the class as the argument. -/
def fieldAsArgument (body : Option (List Node)) : Node :=
  .compilationUnit
    [.classDecl ⟨0, 0⟩ "Outer" false
      [.methodDecl ⟨2, 2⟩ "run"
        [.newObject ⟨3, 4⟩ (.typeRef ⟨3, 8⟩ "Runnable") [.simpleName ⟨3, 17⟩ "field"] body]]]

/-- The scopes around the creation, and those of its body. -/
def fieldAsArgumentScopes (body : List ScopeTree.BuildStep) : ScopeTree :=
  .build
    ([.importType "java.lang.Runnable", .enter .compilationUnit "app",
      .declareType "Outer" "app.Outer", .enterMembers "Outer" "app.Outer",
      .declareField "field" false, .enter .callable "run"] ++ body)

def runnableBody : List ScopeTree.BuildStep := [.enterMembers "Runnable$1" "app.Outer$1"]

def runnablePolicy : Policy := .build [.allowNamespace "app", .allowDefaultBaseClasses]

/-- The argument is a field of the innermost type as long as the creation has no body. With one, the
same argument is refused. -/
theorem resolveFile_fieldAsArgument :
    let position : SourcePosition := ⟨⟨0⟩, ⟨3, 17⟩⟩
    (resolveFile ⟨0⟩ (fieldAsArgument none) (fieldAsArgumentScopes []) runnablePolicy).map
        (·.identifiers.entries) = .ok [(position, ⟨"app.Outer.field", .scope "Outer"⟩)] ∧
      (resolveFile ⟨0⟩ (fieldAsArgument (some [])) (fieldAsArgumentScopes runnableBody)
        runnablePolicy).map (·.identifiers.entries) =
          .error (.outerInstance position "field" .field) := by
  decide +kernel

theorem hiddenBehind_field :
    (fieldAsArgumentScopes runnableBody).HiddenBehind 4 3 .identifier "field" := by
  have hnearest : (fieldAsArgumentScopes runnableBody).DeclaresNearest 3 .identifier "field"
      ⟨"Outer", .members, some 1, [3], some "app.Outer",
        [⟨"field", "app.Outer.field", .field, false⟩]⟩
      ⟨"field", "app.Outer.field", .field, false⟩ :=
    ScopeTree.declaresNearest_iff.mpr
      ⟨by decide +kernel, ((fieldAsArgumentScopes runnableBody).ancestors 3).take 1, 2,
        ((fieldAsArgumentScopes runnableBody).ancestors 3).drop 2, by decide +kernel,
        by decide +kernel⟩
  exact ⟨⟨"Runnable$1", .members, some 3, [], some "app.Outer$1", []⟩, "app.Outer$1",
    by decide +kernel, rfl, rfl, rfl, _, _, hnearest, by simp, by simp, rfl⟩

theorem newObject_fieldAsArgument :
    let ctx : Context := ⟨⟨0⟩, fieldAsArgumentScopes runnableBody, runnablePolicy⟩
    let type := Node.typeRef ⟨3, 8⟩ "Runnable"
    let argument := Node.simpleName ⟨3, 17⟩ "field"
    let creation := Node.newObject ⟨3, 4⟩ type [argument]
    ctx.walk (creation none) ⟨.onScope 3, .empty⟩ =
        WalkState.mk (.onScope 3) <$> [type, argument].foldlM (ctx.recordIn 3) .empty ∧
      ctx.walk (creation (some [])) ⟨.onScope 3, .empty⟩ =
        .error (.outerInstance ⟨⟨0⟩, ⟨3, 17⟩⟩ "field" .field) := by
  intro ctx type argument creation
  have hplain : ∀ node ∈ [type, argument], node.demand = [] := by
    rw [List.forall_mem_cons, List.forall_mem_singleton]
    exact ⟨rfl, rfl⟩
  obtain ⟨hwalk, -, -, hrefused⟩ := ctx.walk_newObject_args hplain
    (show (ctx.scopes.children 3)[0]? = some 4 by decide +kernel) ⟨3, 4⟩ [] .empty
  -- the walk of the type finds nothing, and then comes to the argument
  obtain ⟨kept, hkept⟩ : ∃ kept, [type].foldlM (ctx.recordIn 4) .empty = .ok kept :=
    exists_eq_ok_of_isSome (by decide +kernel)
  obtain ⟨hname, -⟩ := hrefused [type] argument [] kept "field" rfl hkept
  exact ⟨hwalk, hname rfl (by decide) hiddenBehind_field⟩

end NameResolution
