import NameResolution.Policy
import NameResolution.Resolution
import NameResolution.Scope.Lookup
import NameResolution.Syntax.Node

/-!
# What a node denotes

What a single node means in the scope it stands in, whatever stands around it: the method of a call
without a receiver, the identifier of a name or of the leftmost name of a field access. A name that
resolves to nothing denotes nothing. The failures are

* a member that is reachable only through an enclosing instance,
* `Outer.this` for another type than the innermost one,
* a qualified name or type that the policy refuses.
-/

namespace NameResolution

/-- The surroundings of a walk: the file, its scopes and the policy in force. -/
structure Context where
  file : FileId
  scopes : ScopeTree
  policy : Policy

namespace Context

/-- The position of a node of the file. -/
def position (ctx : Context) (node : Node) : SourcePosition := ⟨ctx.file, node.start⟩

/-- The identifier that `text` means; `none` when it means nothing. -/
def identifier (ctx : Context) (scope : ScopeId) (position : SourcePosition) (text : String) :
    Except ResolveError (Option Occurrence) :=
  match ctx.scopes.resolveIdentifier scope text with
  | none => .ok none
  | some name =>
    if name.isEnclosing then .error (.outerInstance position text .field)
    else .ok (some (.identifier name))

/-- The method that a call of `name` without a receiver means. -/
def calledMethod (ctx : Context) (scope : ScopeId) (position : SourcePosition) (name : String) :
    Except ResolveError (Option Occurrence) :=
  match ctx.scopes.resolveMethod scope name with
  | none => .ok none
  | some method =>
    if method.isEnclosing then .error (.outerInstance position name .method)
    else .ok (some (.method method))

/-- Whether `outer.this` is another instance than the innermost one; `none` when `outer` is not a
visible type. -/
def isOuterInstance? (ctx : Context) (scope : ScopeId) (outer : String) : Option Bool :=
  (ctx.scopes.resolveType scope outer).map fun type =>
    ctx.scopes.innermostType? scope != some type.name

/-- A call on `outer.this` has to stay on the innermost instance. -/
def checkReceiver (ctx : Context) (scope : ScopeId) (position : SourcePosition) (name : String) :
    Option Node → Except ResolveError Unit
  | some ⟨.this (some outer), _, _⟩ =>
    if ctx.isOuterInstance? scope outer = some true then
      .error (.outerInstance position (Dotted.member (Dotted.member outer "this") name) .method)
    else .ok ()
  | _ => .ok ()

/-- The policy has to accept a type: a single segment under its qualified name if it is visible, a
longer name as it is written. -/
def checkType (ctx : Context) (scope : ScopeId) (position : SourcePosition) :
    List String → Except ResolveError Unit
  | [] => .ok ()
  | [simple] =>
    match ctx.scopes.resolveType scope simple with
    | some type => ctx.policy.check position type.name
    | none => ctx.policy.check position simple
  | segments => ctx.policy.check position (Dotted.join segments)

/-- What `first.rest` denotes, where `first` is a name or `this`: a variable, a member of a visible
type, or a path that the policy has to accept. -/
def namedAccess (ctx : Context) (scope : ScopeId) (node : Node) (first : String) :
    Except ResolveError (Option Occurrence) := do
  let position := ctx.position node
  match ctx.scopes.resolveIdentifier scope first with
  | some _ => ctx.identifier scope position first
  | none =>
    if (ctx.scopes.resolveType scope first).isSome then return none
    match node.text with
    | none => return none
    | some text =>
      if first ≠ "this" then
        ctx.policy.check position ((node.qualifier?.bind Node.text).getD "")
      ctx.identifier scope position text

/-- What `outer.this.rest` denotes: on the innermost instance the same as `this.rest`. -/
def outerAccess (ctx : Context) (scope : ScopeId) (node : Node) (outer : String) :
    Except ResolveError (Option Occurrence) :=
  let position := ctx.position node
  let text := node.text.getD ""
  match ctx.isOuterInstance? scope outer with
  | none => .ok none
  | some true => .error (.outerInstance position text .field)
  | some false =>
    ctx.identifier scope position ((Dotted.stripStart (outer ++ ".") text).getD text)

/-- A field access whose leftmost qualifier is a name or a `this`; any other denotes nothing of its
own. -/
def fieldAccess (ctx : Context) (scope : ScopeId) (node : Node) :
    Except ResolveError (Option Occurrence) :=
  match node.leftmost?.map Node.kind with
  | some (.name first) => ctx.namedAccess scope node first
  | some (.this none) => ctx.namedAccess scope node "this"
  | some (.this (some outer)) => ctx.outerAccess scope node outer
  | _ => .ok none

/-- What a node denotes in a scope. -/
def denotes (ctx : Context) (scope : ScopeId) (node : Node) :
    Except ResolveError (Option Occurrence) :=
  let position := ctx.position node
  match node.kind with
  | .methodCall name false => ctx.calledMethod scope position name
  | .methodCall name true =>
    (ctx.checkReceiver scope position name node.children.head?).map fun _ => none
  | .name ident => ctx.identifier scope position ident
  | .typeRef segments => (ctx.checkType scope position segments).map fun _ => none
  | .fieldAccess _ => ctx.fieldAccess scope node
  | _ => .ok none

end Context

end NameResolution
