import NameResolution.Proofs.Place
import NameResolution.Proofs.WalkStep
import NameResolution.Scope.Builder
import NameResolution.Syntax.Build

/-!
# Nodes without a part in resolution

A node that opens no contour and denotes nothing only stands for its children, so it can be
replaced by them where it stands in a list of children (`Context.walkAll_splice`). What is around
that list cannot tell the difference: a node is seen from outside through its kind, its start, its
text, the kind at the end of its chain and its walk, and two nodes that agree on these
(`Context.Alike`) can be exchanged anywhere in a tree (`Context.Alike.replaceAt`).

`resolveFile_splice` says so of a whole file. The bodies of enums are an instance: they belong to
the scope around them.
-/

namespace NameResolution

namespace NodeKind

/-- The kind of the nodes `receiver.name(arguments)`. -/
def hasReceiver : NodeKind → Bool
  | .methodCall _ hasReceiver => hasReceiver
  | _ => false

/-- A node of this kind opens no contour and denotes nothing. -/
def isTransparent : NodeKind → Bool
  | .other _ | .enumDecl _ | .primitive _ | .this _ => true
  | .objectCreation anonymousBody => !anonymousBody
  | _ => false

end NodeKind

namespace Node

/-- The tree with another node at a place; a place outside the tree leaves it as it is. -/
def replaceAt : Node → Place → Node → Node
  | _, [], new => new
  | ⟨kind, start, children⟩, i :: p, new =>
    ⟨kind, start, children.modify i fun child => child.replaceAt p new⟩

@[simp] theorem replaceAt_nil (node new : Node) : node.replaceAt [] new = new := by
  cases node
  rfl

theorem replaceAt_cons {node child : Node} {i : Nat} (h : node.children[i]? = some child)
    (p : Place) (new : Node) :
    node.replaceAt (i :: p) new =
      ⟨node.kind, node.start, node.children.set i (child.replaceAt p new)⟩ := by
  obtain ⟨kind, start, children⟩ := node
  have : Inhabited Node := ⟨child⟩
  rw [replaceAt, List.modify_eq_set, h, Option.getD_some]

/-- The new node stands at its place. -/
theorem at?_replaceAt {node old : Node} {p : Place} (h : node.at? p = some old) (new : Node) :
    (node.replaceAt p new).at? p = some new := by
  induction p generalizing node with
  | nil => rw [replaceAt_nil, at?_nil]
  | cons i p ih =>
    obtain ⟨child, hchild, hold⟩ := Option.bind_eq_some_iff.mp h
    obtain ⟨hi, -⟩ := List.getElem?_eq_some_iff.mp hchild
    rw [replaceAt_cons hchild]
    exact (at?_cons_of_getElem? (List.getElem?_set_self hi) p).trans (ih hold)

/-- The node with a child replaced by the children of that child. -/
def splice (node : Node) (i : Nat) (child : Node) : Node :=
  { node with
    children := node.children.take i ++ child.children ++ node.children.drop (i + 1) }

end Node

namespace Context

/-- Nothing around the nodes can tell them apart. -/
structure Alike (ctx : Context) (a b : Node) : Prop where
  kind : a.kind = b.kind
  start : a.start = b.start
  text : a.text = b.text
  chainEnd : a.chainEnd.kind = b.chainEnd.kind
  walk : ∀ state, ctx.walk a state = ctx.walk b state

variable {ctx : Context}

/-! ## What nodes denote is seen from outside -/

theorem checkReceiver_congr {receiver receiver' : Option Node}
    (h : receiver.map Node.kind = receiver'.map Node.kind) (scope : ScopeId)
    (position : SourcePosition) (name : String) :
    ctx.checkReceiver scope position name receiver =
      ctx.checkReceiver scope position name receiver' := by
  cases receiver with
  | none =>
    cases receiver' with
    | none => rfl
    | some node' => cases h
  | some node =>
    cases receiver' with
    | none => cases h
    | some node' =>
      obtain ⟨kind, start, children⟩ := node
      obtain ⟨kind', start', children'⟩ := node'
      obtain rfl : kind = kind' := Option.some.inj h
      cases kind with
      | this qualifier => cases qualifier <;> rfl
      | _ => rfl

/-- A node that is no field access denotes what its kind, its start and the kind of its receiver
say. -/
theorem denotes_congr {kind : NodeKind} {children children' : List Node}
    (hkind : kind.isFieldAccess = false)
    (hreceiver : kind.hasReceiver = true →
      children.head?.map Node.kind = children'.head?.map Node.kind)
    (start : LineCol) (scope : ScopeId) :
    ctx.denotes scope ⟨kind, start, children⟩ = ctx.denotes scope ⟨kind, start, children'⟩ := by
  cases kind with
  | fieldAccess field => cases hkind
  | methodCall name hasReceiver =>
    cases hasReceiver with
    | false => rfl
    | true =>
      exact congrArg (Except.map fun _ => none)
        (checkReceiver_congr (hreceiver rfl) scope _ name)
  | _ => rfl

/-- A field access denotes what its start, the text of its qualifier and the kind at the end of its
chain say. -/
theorem denotes_fieldAccess_congr {q q' : Node} (htext : q.text = q'.text)
    (hend : q.chainEnd.kind = q'.chainEnd.kind) (field : String) (start : LineCol)
    (rest rest' : List Node) (scope : ScopeId) :
    ctx.denotes scope ⟨.fieldAccess field, start, q :: rest⟩ =
      ctx.denotes scope ⟨.fieldAccess field, start, q' :: rest'⟩ := by
  have haccess : Node.text ⟨.fieldAccess field, start, q :: rest⟩ =
      Node.text ⟨.fieldAccess field, start, q' :: rest'⟩ :=
    congrArg (Option.map fun text => Dotted.member text field) htext
  have hnamed (first : String) :
      ctx.namedAccess scope ⟨.fieldAccess field, start, q :: rest⟩ first =
        ctx.namedAccess scope ⟨.fieldAccess field, start, q' :: rest'⟩ first := by
    unfold namedAccess
    simp only [haccess, Node.qualifier?, List.head?_cons, Option.bind_some, htext]
    rfl
  have houter (outer : String) :
      ctx.outerAccess scope ⟨.fieldAccess field, start, q :: rest⟩ outer =
        ctx.outerAccess scope ⟨.fieldAccess field, start, q' :: rest'⟩ outer := by
    unfold outerAccess
    simp only [haccess]
    rfl
  have hleft (q : Node) (rest : List Node) :
      Node.leftmost? ⟨.fieldAccess field, start, q :: rest⟩ = some q.chainEnd :=
    Node.leftmost?_eq_of_qualifier? rfl
  show ctx.fieldAccess scope _ = ctx.fieldAccess scope _
  unfold fieldAccess
  rw [hleft, hleft, Option.map_some, Option.map_some, hend]
  simp only [hnamed, houter]

theorem recordNode_congr {a b : Node}
    (hdenotes : ∀ scope, ctx.denotes scope a = ctx.denotes scope b) (hstart : a.start = b.start)
    (state : WalkState) : ctx.recordNode a state = ctx.recordNode b state := by
  have hposition : ctx.position a = ctx.position b := by rw [position, position, hstart]
  unfold recordNode
  rw [hdenotes, hposition]

/-! ## Nodes with like children -/

/-- Below a node that is no field access only the walk of the children counts, and the kind of a
receiver. -/
theorem alike_of_walkAll {kind : NodeKind} {children children' : List Node}
    (hkind : kind.isFieldAccess = false)
    (hreceiver : kind.hasReceiver = true →
      children.head?.map Node.kind = children'.head?.map Node.kind)
    (hwalk : ∀ state, ctx.walkAll children state = ctx.walkAll children' state)
    (start : LineCol) : ctx.Alike ⟨kind, start, children⟩ ⟨kind, start, children'⟩ where
  kind := rfl
  start := rfl
  text := by
    cases kind with
    | fieldAccess field => cases hkind
    | this qualifier => cases qualifier <;> rfl
    | _ => rfl
  chainEnd := by
    rw [Node.chainEnd_of_qualifier?_eq_none, Node.chainEnd_of_qualifier?_eq_none] <;>
      exact Node.qualifier?_eq_none_of_isFieldAccess_eq_false hkind
  walk := by
    rintro ⟨⟨outer, taken⟩, found⟩
    cases hdepth : kind.contourDepth with
    | zero =>
      have hrecord : ctx.recordNode ⟨kind, start, children⟩ ⟨⟨outer, taken⟩, found⟩ =
          ctx.recordNode ⟨kind, start, children'⟩ ⟨⟨outer, taken⟩, found⟩ :=
        recordNode_congr (denotes_congr hkind hreceiver start) rfl _
      rw [walk_of_contourDepth_eq_zero hkind hdepth, walk_of_contourDepth_eq_zero hkind hdepth,
        hrecord]
      exact congrArg _ (funext hwalk)
    | succ more =>
      rw [walk_of_contourDepth hdepth, walk_of_contourDepth hdepth]
      simp only [hwalk]
      rfl

/-- Of a field access only the qualifier counts. -/
theorem alike_of_qualifier {q q' : Node} (htext : q.text = q'.text)
    (hend : q.chainEnd.kind = q'.chainEnd.kind)
    (hwalk : ∀ state, ctx.walk q state = ctx.walk q' state) (field : String) (start : LineCol)
    (rest rest' : List Node) :
    ctx.Alike ⟨.fieldAccess field, start, q :: rest⟩ ⟨.fieldAccess field, start, q' :: rest'⟩ where
  kind := rfl
  start := rfl
  text := congrArg (Option.map fun text => Dotted.member text field) htext
  chainEnd := hend
  walk := by
    intro state
    cases hpath : q.chainEnd.kind.startsPath with
    | true =>
      rw [walk_of_startsPath hpath, walk_of_startsPath (hend ▸ hpath)]
      exact recordNode_congr (denotes_fieldAccess_congr htext hend field start rest rest') rfl state
    | false => rw [walk_computed hpath, walk_computed (hend ▸ hpath), hwalk]

theorem walkAll_append (first later : List Node) (state : WalkState) :
    ctx.walkAll (first ++ later) state = ctx.walkAll first state >>= ctx.walkAll later := by
  induction first generalizing state with
  | nil => rfl
  | cons node first ih =>
    rw [List.cons_append, walkAll_cons, walkAll_cons, bind_assoc]
    exact congrArg _ (funext ih)

namespace Alike

theorem walkAll_set {children : List Node} {i : Nat} {a b : Node} (h : ctx.Alike a b)
    (hi : children[i]? = some a) (state : WalkState) :
    ctx.walkAll children state = ctx.walkAll (children.set i b) state := by
  induction children generalizing i state with
  | nil => cases hi
  | cons node children ih =>
    cases i with
    | zero =>
      obtain rfl : node = a := Option.some.inj hi
      rw [List.set_cons_zero, walkAll_cons, walkAll_cons, h.walk]
    | succ i =>
      rw [List.set_cons_succ, walkAll_cons, walkAll_cons]
      exact congrArg _ (funext fun next => ih hi next)

/-- A child can be exchanged for one like it. -/
theorem set {node a b : Node} {i : Nat} (h : ctx.Alike a b) (hi : node.children[i]? = some a) :
    ctx.Alike node ⟨node.kind, node.start, node.children.set i b⟩ := by
  obtain ⟨kind, start, children⟩ := node
  cases hkind : kind.isFieldAccess with
  | false =>
    refine alike_of_walkAll hkind (fun _ => ?_) (h.walkAll_set hi) start
    cases children with
    | nil => cases hi
    | cons node children =>
      cases i with
      | zero =>
        obtain rfl : node = a := Option.some.inj hi
        exact congrArg some h.kind
      | succ i => rfl
  | true =>
    cases kind with
    | fieldAccess field =>
      cases children with
      | nil => cases hi
      | cons q rest =>
        cases i with
        | zero =>
          obtain rfl : q = a := Option.some.inj hi
          exact alike_of_qualifier h.text h.chainEnd h.walk field start rest rest
        | succ i => exact alike_of_qualifier rfl rfl (fun _ => rfl) field start rest _
    | _ => cases hkind

/-- **Nodes that look alike can be exchanged anywhere in a tree.** -/
theorem replaceAt {root a b : Node} {p : Place} (h : ctx.Alike a b) (hp : root.at? p = some a) :
    ctx.Alike root (root.replaceAt p b) := by
  induction p generalizing root with
  | nil =>
    obtain rfl : root = a := Option.some.inj hp
    rw [Node.replaceAt_nil]
    exact h
  | cons i p ih =>
    obtain ⟨child, hchild, hold⟩ := Option.bind_eq_some_iff.mp hp
    rw [Node.replaceAt_cons hchild]
    exact (ih hold).set hchild

theorem resolveFile_eq {file : FileId} {scopes : ScopeTree} {policy : Policy} {a b : Node}
    (h : (⟨file, scopes, policy⟩ : Context).Alike a b) :
    resolveFile file a scopes policy = resolveFile file b scopes policy := by
  unfold resolveFile
  rw [h.walk]

end Alike

/-! ## Transparent nodes -/

/-- A transparent node is walked like its children. -/
theorem walk_of_isTransparent {node : Node} (h : node.kind.isTransparent = true)
    (state : WalkState) : ctx.walk node state = ctx.walkAll node.children state := by
  obtain ⟨kind, start, children⟩ := node
  cases kind with
  | objectCreation anonymousBody =>
    cases anonymousBody with
    | false => rfl
    | true => cases h
  | other _ | enumDecl _ | primitive _ | this _ => rfl
  | _ => cases h

/-- A transparent child can give way to its children. -/
theorem walkAll_splice {node child : Node} {i : Nat} (hchild : node.children[i]? = some child)
    (h : child.kind.isTransparent = true) (state : WalkState) :
    ctx.walkAll node.children state = ctx.walkAll (node.splice i child).children state := by
  obtain ⟨hi, hget⟩ := List.getElem?_eq_some_iff.mp hchild
  have hsplit : node.children = node.children.take i ++ child :: node.children.drop (i + 1) := by
    rw [← hget, ← List.drop_eq_getElem_cons hi, List.take_append_drop]
  calc ctx.walkAll node.children state
      = ctx.walkAll (node.children.take i ++ child :: node.children.drop (i + 1)) state := by
        rw [← hsplit]
    _ = ctx.walkAll (node.children.take i ++ (child.children ++ node.children.drop (i + 1)))
          state := by
        rw [walkAll_append, walkAll_append]
        refine congrArg _ (funext fun next => ?_)
        rw [walkAll_cons, walkAll_append, walk_of_isTransparent h]
    _ = ctx.walkAll (node.splice i child).children state := by
        rw [← List.append_assoc]
        rfl

end Context

/-- **A node without a part in resolution can give way to its children**, where its parent does not
look at its first child. -/
theorem resolveFile_splice {root node child : Node} {p : Place} {i : Nat}
    (hnode : root.at? p = some node) (hfield : node.kind.isFieldAccess = false)
    (hreceiver : node.kind.hasReceiver = false) (hchild : node.children[i]? = some child)
    (htransparent : child.kind.isTransparent = true) :
    let spliced := root.replaceAt p (node.splice i child)
    spliced.at? p = some (node.splice i child) ∧
      ∀ file scopes policy,
        resolveFile file spliced scopes policy = resolveFile file root scopes policy := by
  intro spliced
  refine ⟨Node.at?_replaceAt hnode _, fun file scopes policy => ?_⟩
  have halike : (⟨file, scopes, policy⟩ : Context).Alike node (node.splice i child) := by
    obtain ⟨kind, start, children⟩ := node
    apply Context.alike_of_walkAll hfield
    · intro h
      cases h.symm.trans hreceiver
    · exact Context.walkAll_splice hchild htransparent
  exact (halike.replaceAt hnode).resolveFile_eq.symm

/-- A class with three methods, the second of them in an enum. -/
def enumInClass : Node :=
  .compilationUnit
    [.classDecl ⟨0, 0⟩ "A" false
      [.methodDecl ⟨1, 0⟩ "first" [.simpleName ⟨1, 8⟩ "x"],
        .enumDecl ⟨2, 0⟩ "E" [.methodDecl ⟨3, 0⟩ "second" [.simpleName ⟨3, 8⟩ "y"]],
        .methodDecl ⟨5, 0⟩ "third" [.simpleName ⟨5, 8⟩ "z"]]]

/-- The three methods side by side. -/
def methodsInClass : Node :=
  .compilationUnit
    [.classDecl ⟨0, 0⟩ "A" false
      [.methodDecl ⟨1, 0⟩ "first" [.simpleName ⟨1, 8⟩ "x"],
        .methodDecl ⟨3, 0⟩ "second" [.simpleName ⟨3, 8⟩ "y"],
        .methodDecl ⟨5, 0⟩ "third" [.simpleName ⟨5, 8⟩ "z"]]]

def threeMethodScopes : ScopeTree :=
  .build
    [.enter .compilationUnit "unit", .enterMembers "A" "A", .enter .callable "first",
      .declareVariable "x", .exit, .enter .callable "second", .declareVariable "y", .exit,
      .enter .callable "third", .declareVariable "z"]

theorem splice_enumInClass :
    resolveFile ⟨0⟩ methodsInClass threeMethodScopes .default =
        resolveFile ⟨0⟩ enumInClass threeMethodScopes .default ∧
      (resolveFile ⟨0⟩ enumInClass threeMethodScopes .default).map (·.identifiers.entries) =
        .ok [(⟨⟨0⟩, ⟨1, 8⟩⟩, ⟨"x", .scope "first"⟩), (⟨⟨0⟩, ⟨3, 8⟩⟩, ⟨"y", .scope "second"⟩),
          (⟨⟨0⟩, ⟨5, 8⟩⟩, ⟨"z", .scope "third"⟩)] := by
  obtain ⟨-, hsplice⟩ := @resolveFile_splice enumInClass _ _ [0] 1 rfl rfl rfl rfl rfl
  exact ⟨hsplice ⟨0⟩ threeMethodScopes .default, by decide +kernel⟩

end NameResolution
