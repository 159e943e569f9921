import NameResolution.Proofs.DottedNames
import NameResolution.Syntax.Node

/-!
# Chains of field accesses

A field access of a field access of a field access: `Node.Selects base fields node` says that `node`
takes `fields` one after the other, starting from `base`. Its text is that of `base` followed by the
fields (`Node.Selects.text_eq`), and its leftmost qualifier is that of `base`
(`Node.Selects.leftmost?_eq`). Where its links start does not matter, nor do children that are no
qualifiers.
-/

namespace NameResolution

namespace Node

/-- The node takes fields one after the other, starting from `base`. -/
inductive Selects (base : Node) : List String → Node → Prop where
  | base : Selects base [] base
  | field {fields : List String} {q : Node} (hq : Selects base fields q) (field : String)
      (start : LineCol) (rest : List Node) :
      Selects base (fields ++ [field]) ⟨.fieldAccess field, start, q :: rest⟩

namespace Selects

variable {base node : Node} {fields : List String}

theorem text_eq (h : base.Selects fields node) :
    node.text = base.text.map fun text => fields.foldl Dotted.member text := by
  induction h with
  | base => cases base.text <;> rfl
  | @field fields q hq field start rest ih =>
    show q.text.map (Dotted.member · field) = _
    rw [ih, Option.map_map]
    congr 1
    funext text
    rw [Function.comp_apply, List.foldl_append]
    rfl

theorem chainEnd_eq (h : base.Selects fields node) : node.chainEnd = base.chainEnd := by
  induction h with
  | base => rfl
  | field hq field start rest ih => exact ih

/-- A chain with a field ends with a field access, whose qualifier takes the fields before. -/
theorem exists_qualifier (h : base.Selects fields node) (hfields : fields ≠ []) :
    ∃ field start q rest, node = ⟨.fieldAccess field, start, q :: rest⟩ ∧
      base.Selects fields.dropLast q := by
  cases h with
  | base => exact absurd rfl hfields
  | field hq field start rest =>
    refine ⟨field, start, _, rest, rfl, ?_⟩
    rwa [List.dropLast_concat]

theorem leftmost?_eq (h : base.Selects fields node) (hfields : fields ≠ []) :
    node.leftmost? = some base.chainEnd := by
  obtain ⟨field, start, q, rest, rfl, hq⟩ := h.exists_qualifier hfields
  rw [leftmost?_eq_of_qualifier? rfl, hq.chainEnd_eq]

end Selects

end Node

end NameResolution
