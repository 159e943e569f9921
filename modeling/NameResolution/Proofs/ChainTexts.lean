import NameResolution.Proofs.InnermostThis

/-!
# The texts of chains

The text of a field access is built along its chain of qualifiers, and the leftmost qualifier is
found along the same chain, apart from it. Both come to the same end: the text of a field access is
that of its leftmost qualifier with the fields of the chain behind it (`Node.text_of_leftmost?`), so
it is missing only where the leftmost qualifier has none (`Node.text_fieldAccess_eq_none_iff`).

What a field access denotes is defined with an answer for every missing text. On a name or a `this`
no text is missing, and these answers are not given: `Context.fieldAccess_eq_pathAccess` and
`Context.fieldAccess_eq_outerPath` say what is denoted without them.
-/

namespace NameResolution

namespace Node

variable {node base q : Node} {field : String} {start : LineCol} {children : List Node}

/-- The fields that a chain selects, from its end outwards. -/
def chainFields : Node → List String
  | ⟨.fieldAccess field, _, q :: _⟩ => q.chainFields ++ [field]
  | _ => []
termination_by structural node => node

/-- A chain selects its fields from its end. -/
theorem selects_chainFields (node : Node) : node.chainEnd.Selects node.chainFields node := by
  induction node using Node.induction with
  | step kind start children ih =>
    cases kind with
    | fieldAccess field =>
      cases children with
      | nil => exact .base
      | cons q rest => exact (ih q List.mem_cons_self).field field start rest
    | _ => exact .base

theorem chainFields_ne_nil (h : node.qualifier? = some q) : node.chainFields ≠ [] := by
  obtain ⟨kind, start, children⟩ := node
  cases kind with
  | fieldAccess field =>
    cases children with
    | nil => cases h
    | cons q rest => simp [chainFields]
  | _ => cases h

theorem chainEnd_of_leftmost? (h : node.leftmost? = some base) : node.chainEnd = base := by
  obtain ⟨q, hq, rfl⟩ := Option.map_eq_some_iff.mp h
  exact chainEnd_of_qualifier?_eq_some hq

/-- **The text of a field access is that of its leftmost qualifier and the fields behind it.** -/
theorem text_of_leftmost? (h : node.leftmost? = some base) :
    node.text = base.text.map fun own => own ++ "." ++ Dotted.join node.chainFields := by
  obtain ⟨q, hq, -⟩ := Option.map_eq_some_iff.mp h
  have hselects := node.selects_chainFields
  rw [chainEnd_of_leftmost? h] at hselects
  rw [hselects.text_eq]
  congr 1
  funext own
  exact Dotted.foldl_member (chainFields_ne_nil hq) own

/-- The last of these fields is that of the field access itself. -/
theorem text_of_qualifier? (h : qualifier? ⟨.fieldAccess field, start, children⟩ = some q) :
    text ⟨.fieldAccess field, start, children⟩ = q.text.map (Dotted.member · field) := by
  cases children with
  | nil => cases h
  | cons q' rest =>
    obtain rfl : q' = q := Option.some.inj h
    rfl

/-- A field access has no text only if it has no qualifier, or if that at the end of the chain has
none. -/
theorem text_fieldAccess_eq_none_iff :
    text ⟨.fieldAccess field, start, children⟩ = none ↔
      qualifier? ⟨.fieldAccess field, start, children⟩ = none ∨
        ∃ base, leftmost? ⟨.fieldAccess field, start, children⟩ = some base ∧
          base.text = none := by
  cases children with
  | nil => exact iff_of_true rfl (.inl rfl)
  | cons q rest =>
    have hleft : leftmost? ⟨.fieldAccess field, start, q :: rest⟩ = some q.chainEnd := rfl
    rw [text_of_leftmost? hleft, Option.map_eq_none_iff, hleft]
    simp [qualifier?]

theorem text_of_name {ident : String} (h : base.kind = .name ident) : base.text = some ident := by
  obtain ⟨kind, start, children⟩ := base
  obtain rfl : kind = .name ident := h
  rfl

theorem text_of_thisRef {qualifier? : Option String} (h : base.kind = .this qualifier?) :
    base.text = some ((qualifier?.map (Dotted.member · "this")).getD "this") := by
  obtain ⟨kind, start, children⟩ := base
  obtain rfl : kind = .this qualifier? := h
  cases qualifier? <;> rfl

theorem exists_text_of_startsPath (h : base.kind.startsPath = true) :
    ∃ own, base.text = some own := by
  cases hkind : base.kind with
  | name ident => exact ⟨ident, text_of_name hkind⟩
  | this qualifier? => exact ⟨_, text_of_thisRef hkind⟩
  | _ =>
    rw [hkind] at h
    cases h

/-- On a name or a `this`, neither the field access nor its qualifier lacks a text. -/
theorem exists_qualifier_text (hleft : leftmost? ⟨.fieldAccess field, start, children⟩ = some base)
    (hbase : base.kind.startsPath = true) :
    ∃ qualifier, (qualifier? ⟨.fieldAccess field, start, children⟩).bind text = some qualifier ∧
      text ⟨.fieldAccess field, start, children⟩ = some (Dotted.member qualifier field) := by
  obtain ⟨own, hown⟩ := exists_text_of_startsPath hbase
  obtain ⟨q, hq, -⟩ := Option.map_eq_some_iff.mp hleft
  have htext := text_of_leftmost? hleft
  rw [hown, Option.map_some, text_of_qualifier? hq] at htext
  obtain ⟨qualifier, hqualifier, -⟩ := Option.map_eq_some_iff.mp htext
  refine ⟨qualifier, ?_, ?_⟩
  · rw [hq, Option.bind_some, hqualifier]
  · rw [text_of_qualifier? hq, hqualifier, Option.map_some]

end Node

namespace Context

variable {ctx : Context} {scope : ScopeId} {node base : Node} {outer own qualifier text : String}

/-- What a path on `first` denotes, by its text and that of its qualifier: what `first` does, or
nothing on a visible type, or what the whole text does if the policy accepts the qualifier. -/
def pathAccess (ctx : Context) (scope : ScopeId) (position : SourcePosition)
    (first qualifier text : String) : Except ResolveError (Option Occurrence) := do
  match ctx.scopes.resolveIdentifier scope first with
  | some _ => ctx.identifier scope position first
  | none =>
    if (ctx.scopes.resolveType scope first).isSome then return none
    if first ≠ "this" then ctx.policy.check position qualifier
    ctx.identifier scope position text

/-- What a path on `outer.this` denotes, by its text and the text behind `outer.`. -/
def outerPath (ctx : Context) (scope : ScopeId) (position : SourcePosition)
    (outer text own : String) : Except ResolveError (Option Occurrence) :=
  match ctx.isOuterInstance? scope outer with
  | none => .ok none
  | some true => .error (.outerInstance position text .field)
  | some false => ctx.identifier scope position own

/-- On a name or a plain `this`, no answer to a missing text is given. -/
theorem fieldAccess_eq_pathAccess (hleft : node.leftmost? = some base)
    (hbase : base.kind.startsPath = true) (hplain : ∀ outer, base.kind ≠ .this (some outer))
    (hown : base.text = some own) (htext : node.text = some text)
    (hqualifier : node.qualifier?.bind Node.text = some qualifier) :
    ctx.fieldAccess scope node = ctx.pathAccess scope (ctx.position node) own qualifier text := by
  have hnamed : ctx.fieldAccess scope node = ctx.namedAccess scope node own := by
    unfold fieldAccess
    rw [hleft, Option.map_some]
    cases hkind : base.kind with
    | name ident =>
      obtain rfl := Option.some.inj (hown.symm.trans (Node.text_of_name hkind))
      rfl
    | this qualifier? =>
      cases qualifier? with
      | none =>
        obtain rfl := Option.some.inj (hown.symm.trans (Node.text_of_thisRef hkind))
        rfl
      | some outer => exact absurd hkind (hplain outer)
    | _ =>
      rw [hkind] at hbase
      cases hbase
  rw [hnamed]
  unfold namedAccess pathAccess
  cases ctx.scopes.resolveIdentifier scope own with
  | some _ => rfl
  | none =>
    rw [htext, hqualifier]
    rfl

/-- On `outer.this`, the text begins with `outer.`, and no answer to another text is given. -/
theorem fieldAccess_eq_outerPath (hleft : node.leftmost? = some base)
    (hbase : base.kind = .this (some outer)) (htext : node.text = some text)
    (hown : Dotted.stripStart (outer ++ ".") text = some own) :
    ctx.fieldAccess scope node = ctx.outerPath scope (ctx.position node) outer text own := by
  have hkind : node.leftmost?.map Node.kind = some (.this (some outer)) := by
    rw [hleft, Option.map_some, hbase]
  rw [fieldAccess_of_outerThis hkind]
  unfold outerAccess outerPath
  cases ctx.isOuterInstance? scope outer with
  | none => rfl
  | some isOuter =>
    rw [htext]
    cases isOuter with
    | true => rfl
    | false =>
      show ctx.identifier scope _ ((Dotted.stripStart (outer ++ ".") text).getD text) = _
      rw [hown, Option.getD_some]

/-- A path on a name that means nothing is refused with its qualifier. -/
theorem pathAccess_of_not_accepts {position : SourcePosition} {first : String}
    (hthis : first ≠ "this") (hident : ctx.scopes.resolveIdentifier scope first = none)
    (htype : ctx.scopes.resolveType scope first = none)
    (hrefused : ctx.policy.accepts qualifier = false) :
    ctx.pathAccess scope position first qualifier text =
      .error (.forbiddenName position qualifier) := by
  have hcheck : ctx.policy.check position qualifier =
      .error (.forbiddenName position qualifier) := by
    unfold Policy.check
    rw [hrefused]
    rfl
  unfold pathAccess
  rw [hident, htype, if_pos hthis, hcheck]
  rfl

/-- **On a name or a `this` a field access has its texts.** Its text is that of its leftmost
qualifier with the fields of the chain behind it, and that of its own qualifier with its own field
behind it; on `outer.this` it begins with `outer.this.`. What it denotes is said without an answer
to a missing text, so where its first name means nothing, a qualifier that the policy refuses is
refused. A field access has no text exactly where it has no qualifier or its leftmost qualifier has
no text. -/
theorem fieldAccess_knownTexts (ctx : Context) (scope : ScopeId) (field : String) (start : LineCol)
    (children : List Node) :
    let access : Node := ⟨.fieldAccess field, start, children⟩
    let position := ctx.position access
    (∀ base, access.leftmost? = some base → base.kind.startsPath = true →
      ∃ own qualifier text, base.text = some own ∧
        access.qualifier?.bind Node.text = some qualifier ∧ access.text = some text ∧
        text = own ++ "." ++ Dotted.join access.chainFields ∧
        text = Dotted.member qualifier field ∧
        ((∀ outer, base.kind ≠ .this (some outer)) →
          ctx.fieldAccess scope access = ctx.pathAccess scope position own qualifier text) ∧
        (∀ first, base.kind = .name first → first ≠ "this" →
          ctx.scopes.resolveIdentifier scope first = none →
          ctx.scopes.resolveType scope first = none → ctx.policy.accepts qualifier = false →
            ctx.fieldAccess scope access = .error (.forbiddenName position qualifier)) ∧
        ∀ outer, base.kind = .this (some outer) →
          text = outer ++ ".this." ++ Dotted.join access.chainFields ∧
          ∃ rest, Dotted.stripStart (outer ++ ".") text = some rest ∧
            ctx.fieldAccess scope access = ctx.outerPath scope position outer text rest) ∧
    (access.text = none ↔ access.qualifier? = none ∨
      ∃ base, access.leftmost? = some base ∧ base.text = none) := by
  intro access position
  refine ⟨fun base hleft hbase => ?_, Node.text_fieldAccess_eq_none_iff⟩
  obtain ⟨own, hown⟩ := Node.exists_text_of_startsPath hbase
  obtain ⟨qualifier, hqualifier, htext⟩ := Node.exists_qualifier_text hleft hbase
  have hchain := Node.text_of_leftmost? hleft
  rw [hown, Option.map_some, htext, Option.some.injEq] at hchain
  refine ⟨own, qualifier, _, hown, hqualifier, htext, hchain, rfl, fun hplain => ?_, ?_, ?_⟩
  · exact fieldAccess_eq_pathAccess hleft hbase hplain hown htext hqualifier
  · intro first hfirst hthis hident htype hrefused
    obtain rfl := Option.some.inj (hown.symm.trans (Node.text_of_name hfirst))
    rw [fieldAccess_eq_pathAccess hleft hbase (by simp [hfirst]) hown htext hqualifier]
    exact pathAccess_of_not_accepts hthis hident htype hrefused
  · intro outer houter
    obtain rfl := Option.some.inj (hown.symm.trans (Node.text_of_thisRef houter))
    have hthis : Dotted.member outer "this" ++ "." = outer ++ ".this." := by
      unfold Dotted.member
      rw [String.append_assoc, String.append_assoc]
      rfl
    have hdots : outer ++ ".this." = outer ++ "." ++ "this." := by
      rw [String.append_assoc]
      rfl
    have hbegin : Dotted.member qualifier field =
        outer ++ ".this." ++ Dotted.join (Node.chainFields access) := by
      rw [hchain, ← hthis]
      rfl
    have hstrip : Dotted.stripStart (outer ++ ".") (Dotted.member qualifier field) =
        some ("this." ++ Dotted.join (Node.chainFields access)) := by
      rw [Dotted.stripStart_eq_some_iff, hbegin, hdots, String.append_assoc]
    exact ⟨hbegin, _, hstrip, fieldAccess_eq_outerPath hleft houter htext hstrip⟩

/-- A chain with a second child that is no qualifier, on a name that means nothing, and a chain on
`this` of the class around. -/
theorem knownTexts_rawChain :
    let ctx : Context := ⟨⟨0⟩, sharedFieldScopes, .default⟩
    let qualifier := Node.fieldOf ⟨2, 0⟩ (.simpleName ⟨2, 0⟩ "lib") "Config"
    let raw : Node := ⟨.fieldAccess "size", ⟨2, 0⟩, [qualifier, .simpleName ⟨2, 4⟩ "extra"]⟩
    ctx.fieldAccess 4 raw = .error (.forbiddenName ⟨⟨0⟩, ⟨2, 0⟩⟩ "lib.Config") ∧
      ctx.fieldAccess 4 (sharedField (some "Outer")) =
        ctx.outerPath 4 ⟨⟨0⟩, ⟨5, 0⟩⟩ "Outer" "Outer.this.count.digits" "this.count.digits" := by
  intro ctx qualifier raw
  constructor
  · obtain ⟨_, checked, _, -, hchecked, -, -, -, -, hrefused, -⟩ :=
      (ctx.fieldAccess_knownTexts 4 "size" ⟨2, 0⟩ raw.children).1 (.simpleName ⟨2, 0⟩ "lib") rfl rfl
    obtain rfl : "lib.Config" = checked := Option.some.inj (Eq.trans (by decide +kernel) hchecked)
    exact hrefused "lib" rfl (by decide) (by decide +kernel) (by decide +kernel)
      (by decide +kernel)
  · obtain ⟨_, _, text, -, -, htext, -, -, -, -, houter⟩ :=
      (ctx.fieldAccess_knownTexts 4 "digits" ⟨5, 0⟩ (sharedField (some "Outer")).children).1
        (.thisRef ⟨5, 0⟩ (some "Outer")) rfl rfl
    obtain ⟨-, rest, hrest, haccess⟩ := houter "Outer" rfl
    obtain rfl : "Outer.this.count.digits" = text :=
      Option.some.inj (Eq.trans (by decide +kernel) htext)
    obtain rfl : "this.count.digits" = rest :=
      Option.some.inj (Eq.trans (by decide +kernel) hrest)
    exact haccess

end Context

end NameResolution
