import NameResolution.Proofs.Checks
import NameResolution.Proofs.DistinctPositions
import NameResolution.Proofs.FieldChains
import NameResolution.Proofs.OwnFields
import NameResolution.Scope.Builder
import NameResolution.Syntax.Build

/-!
# `this` of the innermost type

`Outer.this.field` and `this.field` are resolved in different ways: the one looks `Outer` up as a
type, compares it with the innermost type and takes `Outer.` off its text, the other looks first for
something that is named `this`. Where `Outer` is the innermost type and nothing is named `this`,
both come to the own field of that type (`Context.denotes_outerThis`, `Context.denotes_this`),
without a question to the policy and never behind an instance. `Context.walk_outerThis` says what
becomes of `Outer.this.field` in each case.
-/

namespace NameResolution

namespace Node.Selects

variable {base node : Node} {outer : String} {fields : List String}

theorem text_of_this (h : base.Selects fields node) (hbase : base.kind = .this none)
    (hfields : fields ≠ []) : node.text = some ("this." ++ Dotted.join fields) := by
  obtain ⟨kind, start, children⟩ := base
  obtain rfl : kind = .this none := hbase
  rw [h.text_eq]
  show some (fields.foldl Dotted.member "this") = _
  rw [Dotted.foldl_member hfields]
  rfl

theorem text_of_outerThis (h : base.Selects fields node) (hbase : base.kind = .this (some outer))
    (hfields : fields ≠ []) :
    node.text = some (outer ++ "." ++ ("this." ++ Dotted.join fields)) := by
  obtain ⟨kind, start, children⟩ := base
  obtain rfl : kind = .this (some outer) := hbase
  rw [h.text_eq]
  show some (fields.foldl Dotted.member (Dotted.member outer "this")) = _
  rw [Dotted.foldl_member hfields, Dotted.member]
  simp only [String.append_assoc]
  rfl

/-- A chain on a path starts where the path starts. -/
theorem chainEnd_of_startsPath (h : base.Selects fields node)
    (hbase : base.kind.startsPath = true) : node.chainEnd = base := by
  rw [h.chainEnd_eq]
  obtain ⟨kind, start, children⟩ := base
  cases kind <;> first | rfl | cases hbase

theorem map_kind_leftmost? (h : base.Selects fields node) (hbase : base.kind.startsPath = true)
    (hfields : fields ≠ []) : node.leftmost?.map Node.kind = some base.kind := by
  have hend : base.chainEnd = base := Selects.base.chainEnd_of_startsPath hbase
  rw [h.leftmost?_eq hfields, hend, Option.map_some]

end Node.Selects

namespace Context

variable {ctx : Context} {scope : ScopeId} {base node : Node} {outer : String}
  {fields : List String}

/-- What the text `this.member` means in a scope. -/
def ownField (ctx : Context) (scope : ScopeId) (member : String) : Option Occurrence :=
  (ctx.scopes.resolveIdentifier scope ("this." ++ member)).map .identifier

/-- An own field of the innermost type is never behind an instance. -/
theorem identifier_this (position : SourcePosition) (member : String) :
    ctx.identifier scope position ("this." ++ member) = .ok (ctx.ownField scope member) := by
  rw [identifier_eq_ok_iff]
  refine ⟨fun name hname => ?_, rfl⟩
  rw [ScopeTree.resolveIdentifier_this, ScopeTree.nearestField_eq_some_iff] at hname
  obtain ⟨c, found, d, -, -, rfl⟩ := hname
  rfl

/-! ## What the two forms denote -/

theorem denotes_this (h : base.Selects fields node) (hbase : base.kind = .this none)
    (hfields : fields ≠ []) (hident : ctx.scopes.resolveIdentifier scope "this" = none)
    (htype : ctx.scopes.resolveType scope "this" = none) :
    ctx.denotes scope node = .ok (ctx.ownField scope (Dotted.join fields)) := by
  have hleft : node.leftmost?.map Node.kind = some (.this none) :=
    hbase ▸ h.map_kind_leftmost? (by rw [hbase]; rfl) hfields
  have hnamed : ctx.fieldAccess scope node = ctx.namedAccess scope node "this" := by
    unfold fieldAccess
    rw [hleft]
  rw [denotes_eq_fieldAccess (h.leftmost?_eq hfields), hnamed]
  unfold namedAccess
  simp only [hident, htype, h.text_of_this hbase hfields]
  exact identifier_this _ _

/-- Whether `outer` is the innermost type decides what the qualified form denotes. -/
theorem denotes_outerThis (h : base.Selects fields node) (hbase : base.kind = .this (some outer))
    (hfields : fields ≠ []) :
    ctx.denotes scope node =
      match ctx.isOuterInstance? scope outer with
      | none => .ok none
      | some true =>
        .error (.outerInstance (ctx.position node) (outer ++ ".this." ++ Dotted.join fields) .field)
      | some false => .ok (ctx.ownField scope (Dotted.join fields)) := by
  have hleft : node.leftmost?.map Node.kind = some (.this (some outer)) :=
    hbase ▸ h.map_kind_leftmost? (by rw [hbase]; rfl) hfields
  rw [denotes_eq_fieldAccess (h.leftmost?_eq hfields), fieldAccess_of_outerThis hleft]
  unfold outerAccess
  rw [h.text_of_outerThis hbase hfields, Option.getD_some]
  cases ctx.isOuterInstance? scope outer with
  | none => rfl
  | some foreign =>
    cases foreign with
    | true =>
      have hdots : outer ++ ".this." = outer ++ "." ++ "this." := by
        rw [String.append_assoc]
        rfl
      rw [hdots]
      simp only [String.append_assoc]
    | false =>
      -- `outer.` is taken off, and what is left is the text of the plain form
      have hstrip : Dotted.stripStart (outer ++ ".")
          (outer ++ "." ++ ("this." ++ Dotted.join fields)) =
            some ("this." ++ Dotted.join fields) := Dotted.stripStart_eq_some_iff.mpr rfl
      dsimp only
      rw [hstrip]
      exact identifier_this _ _

/-! ## The walk of a chain -/

theorem walk_of_selects (h : base.Selects fields node) (hbase : base.kind.startsPath = true)
    (hfields : fields ≠ []) (state : WalkState) :
    ctx.walk node state = ctx.recordNode node state := by
  obtain ⟨field, start, q, rest, rfl, hq⟩ := h.exists_qualifier hfields
  refine walk_of_startsPath ?_ state
  rw [hq.chainEnd_of_startsPath hbase, hbase]

/-- A walk of a chain records what the chain denotes. -/
theorem walk_of_denotes {occurrence : Option Occurrence} {state : WalkState}
    (h : base.Selects fields node) (hbase : base.kind.startsPath = true) (hfields : fields ≠ [])
    (hdenotes : ctx.denotes state.cursor.scope node = .ok occurrence) :
    ctx.walk node state =
      WalkState.mk state.cursor <$> state.found.add (occurrence.map (ctx.position node, ·)) := by
  rw [walk_of_selects h hbase hfields, recordNode_eq, denotesAt, hdenotes]
  rfl

theorem walk_this {state : WalkState} (h : base.Selects fields node)
    (hbase : base.kind = .this none) (hfields : fields ≠ [])
    (hident : ctx.scopes.resolveIdentifier state.cursor.scope "this" = none)
    (htype : ctx.scopes.resolveType state.cursor.scope "this" = none) :
    ctx.walk node state = WalkState.mk state.cursor <$> state.found.add
      ((ctx.ownField state.cursor.scope (Dotted.join fields)).map (ctx.position node, ·)) :=
  walk_of_denotes h (by rw [hbase]; rfl) hfields (denotes_this h hbase hfields hident htype)

section OuterThis

variable {state : WalkState} (h : base.Selects fields node) (hbase : base.kind = .this (some outer))
  (hfields : fields ≠ [])
include h hbase hfields

/-- On the innermost type, the own field is recorded. -/
theorem walk_of_innermost (hown : ctx.isOuterInstance? state.cursor.scope outer = some false) :
    ctx.walk node state = WalkState.mk state.cursor <$> state.found.add
      ((ctx.ownField state.cursor.scope (Dotted.join fields)).map (ctx.position node, ·)) := by
  refine walk_of_denotes h (by rw [hbase]; rfl) hfields ?_
  rw [denotes_outerThis h hbase hfields, hown]

theorem walk_of_otherType (hother : ctx.isOuterInstance? state.cursor.scope outer = some true) :
    ctx.walk node state = .error (.outerInstance (ctx.position node)
      (outer ++ ".this." ++ Dotted.join fields) .field) := by
  rw [walk_of_selects h (by rw [hbase]; rfl) hfields, recordNode_eq, denotesAt,
    denotes_outerThis h hbase hfields, hother]
  rfl

theorem walk_of_unknownType (hunknown : ctx.isOuterInstance? state.cursor.scope outer = none) :
    ctx.walk node state = .ok state := by
  have hnothing : ctx.denotes state.cursor.scope node = .ok none := by
    rw [denotes_outerThis h hbase hfields, hunknown]
  rw [walk_of_denotes h (by rw [hbase]; rfl) hfields hnothing]
  rfl

end OuterThis

/-- Recording fails only because the position is taken. -/
theorem repeatedPosition_of_add {found : Resolution} {cursor : ScopeCursor}
    {position : SourcePosition} {occurrence : Option Occurrence} {e : ResolveError}
    (h : WalkState.mk cursor <$> found.add (occurrence.map (position, ·)) = .error e) :
    ∃ existing name, e = .repeatedPosition position existing name := by
  obtain ⟨position', first, second, hfound, -, rfl⟩ :=
    Resolution.add_eq_error (map_eq_error_iff.mp h)
  obtain ⟨name, -, hname⟩ := Option.map_eq_some_iff.mp hfound
  obtain rfl := (Prod.mk.inj hname).1
  exact ⟨first.name, second.name, rfl⟩

/-- **`Outer.this` of the innermost type is `this`.** A chain of fields on it has the same outcome
as the chain on a plain `this` at the same position, whatever the policy is, and can fail only
because its position is taken. On any other type the chain is refused with its whole text, and where
`Outer` is no visible type it changes nothing. -/
theorem walk_outerThis {ctx : Context} {outer : String} {fields : List String}
    {base access : Node} (hbase : base.kind = .this (some outer))
    (haccess : base.Selects fields access) (hfields : fields ≠ []) (state : WalkState) :
    let scope := state.cursor.scope
    (∀ type, ctx.scopes.resolveType scope outer = some type →
      ctx.scopes.innermostType? scope = some type.name →
      (ctx.scopes.resolveIdentifier scope "this" = none →
        ctx.scopes.resolveType scope "this" = none →
        ∀ this plain : Node, this.kind = .this none → this.Selects fields plain →
          plain.start = access.start → ctx.walk access state = ctx.walk plain state) ∧
      (∀ policy, Context.walk { ctx with policy } access state = ctx.walk access state) ∧
      ∀ e, ctx.walk access state = .error e →
        (∀ position name member, e ≠ .outerInstance position name member) ∧
          ∃ existing name, e = .repeatedPosition (ctx.position access) existing name) ∧
    (∀ type, ctx.scopes.resolveType scope outer = some type →
      ctx.scopes.innermostType? scope ≠ some type.name →
      ctx.walk access state = .error (.outerInstance (ctx.position access)
        (outer ++ ".this." ++ Dotted.join fields) .field)) ∧
    (ctx.scopes.resolveType scope outer = none → ctx.walk access state = .ok state) := by
  intro scope
  refine ⟨fun type htype hinnermost => ?_, fun type htype hother => ?_, fun hnone => ?_⟩
  · have hown : ctx.isOuterInstance? scope outer = some false := by
      unfold isOuterInstance?
      rw [htype, Option.map_some, hinnermost, bne_self_eq_false]
    have hwalk := walk_of_innermost haccess hbase hfields hown
    refine ⟨fun hident hthis this plain hplain hselects hstart => ?_, fun policy => ?_,
      fun e herror => ?_⟩
    · have hposition : ctx.position plain = ctx.position access := by
        unfold position
        rw [hstart]
      rw [hwalk, walk_this hselects hplain hfields hident hthis, hposition]
    · -- neither the scopes nor the position know of the policy
      have hown' : Context.isOuterInstance? { ctx with policy } scope outer = some false := hown
      rw [hwalk, walk_of_innermost haccess hbase hfields hown']
      rfl
    · rw [hwalk] at herror
      obtain ⟨existing, name, rfl⟩ := repeatedPosition_of_add herror
      exact ⟨by rintro - - - ⟨⟩, existing, name, rfl⟩
  · refine walk_of_otherType haccess hbase hfields ?_
    unfold isOuterInstance?
    rw [htype, Option.map_some, bne_iff_ne.mpr hother]
  · refine walk_of_unknownType haccess hbase hfields ?_
    unfold isOuterInstance?
    rw [hnone, Option.map_none]

end Context

/-- A field access in a method of an inner class; both classes have a field of the name. -/
def sharedFieldScopes : ScopeTree :=
  .build
    [.enter .compilationUnit "unit", .declareType "Outer" "a.Outer",
      .enterMembers "Outer" "a.Outer", .declareField "count" false,
      .declareType "Inner" "a.Outer.Inner", .enterMembers "Inner" "a.Outer.Inner",
      .declareField "count" false, .enter .callable "run"]

def sharedField (qualifier : Option String) : Node :=
  .fieldOf ⟨5, 0⟩ (.fieldOf ⟨5, 0⟩ (.thisRef ⟨5, 0⟩ qualifier) "count") "digits"

theorem selects_sharedField (qualifier : Option String) :
    (Node.thisRef ⟨5, 0⟩ qualifier).Selects ["count", "digits"] (sharedField qualifier) :=
  .field (.field .base "count" _ []) "digits" _ []

theorem walk_outerThis_sharedField :
    let ctx : Context := ⟨⟨0⟩, sharedFieldScopes, .default⟩
    let state : WalkState := ⟨.onScope 4, .empty⟩
    (ctx.walk (sharedField (some "Inner")) state = ctx.walk (sharedField none) state ∧
      ∀ policy, Context.walk { ctx with policy } (sharedField (some "Inner")) state =
        ctx.walk (sharedField none) state) ∧
    ctx.walk (sharedField (some "Outer")) state =
      .error (.outerInstance ⟨⟨0⟩, ⟨5, 0⟩⟩ "Outer.this.count.digits" .field) ∧
    ctx.walk (sharedField (some "Missing")) state = .ok state := by
  intro ctx state
  have hwalk (outer : String) := ctx.walk_outerThis
    (show (Node.thisRef ⟨5, 0⟩ (some outer)).kind = .this (some outer) from rfl)
    (selects_sharedField (some outer)) (by decide) state
  refine ⟨?_, ?_, ?_⟩
  · obtain ⟨hsame, hpolicy, -⟩ :=
      (hwalk "Inner").1 ⟨"a.Outer.Inner", .scope "Outer"⟩ (by decide +kernel) (by decide +kernel)
    have hplain := hsame (by decide +kernel) (by decide +kernel) (.thisRef ⟨5, 0⟩ none) _ rfl
      (selects_sharedField none) rfl
    exact ⟨hplain, fun policy => (hpolicy policy).trans hplain⟩
  · exact (hwalk "Outer").2.1 ⟨"a.Outer", .scope "unit"⟩ (by decide +kernel) (by decide +kernel)
  · exact (hwalk "Missing").2.2 (by decide +kernel)

end NameResolution
