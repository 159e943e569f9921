import NameResolution.Json.Policy
import NameResolution.Proofs.Json.Shapes

/-!
# A written policy is read back

A policy is written as an object of three members, none of which is left out, so the defaults for
what is missing never come into play. Namespaces and base classes are both written as lists; a set
is read back as the list of its members, because that lists each of them once
(`OrderedSet.ofList_toList`).
-/

namespace NameResolution.Policy

open Json (Drafts Reads)

theorem reads_writeStrings (l : List String) :
    Reads (Json.Reader.list .string) (writeStrings l) l :=
  Json.reads_list fun s _ => Json.reads_writeString s

/-- The members of a written policy. -/
def members (base : String) (classes namespaces : List String) : List (String × List Char) :=
  [("baseNamespace", Json.writeString base), ("allowedBaseClasses", writeStrings classes),
    ("allowedNamespaces", writeStrings namespaces)]

/-- The members are read one after the other into an empty draft. -/
theorem drafts_members (base : String) (classes namespaces : List String) :
    Drafts fields ⟨none, none, none⟩ (members base classes namespaces)
      ⟨some base, some classes, some namespaces⟩ := by
  have hnamespaces : Drafts fields ⟨some base, some classes, none⟩
      [("allowedNamespaces", writeStrings namespaces)] ⟨some base, some classes, some namespaces⟩ :=
    .cons rfl rfl ((reads_writeStrings namespaces).bind fun _ => rfl) .nil
  have hclasses : Drafts fields ⟨some base, none, none⟩
      [("allowedBaseClasses", writeStrings classes),
        ("allowedNamespaces", writeStrings namespaces)]
      ⟨some base, some classes, some namespaces⟩ :=
    .cons rfl rfl ((reads_writeStrings classes).bind fun _ => rfl) hnamespaces
  exact .cons rfl rfl ((Json.reads_writeString base).bind fun _ => rfl) hclasses

/-- Namespaces are read as they are written, and classes as a set. -/
theorem reads_members (base : String) (classes namespaces : List String) :
    Reads readJson (Json.writeObject (members base classes namespaces))
      ⟨base, .ofList classes, namespaces⟩ :=
  (Json.reads_record (drafts_members base classes namespaces)).bind fun _ => rfl

theorem reads_writeJson (p : Policy) : Reads readJson p.writeJson p := by
  have hread := reads_members p.baseNamespace p.baseClasses.toList p.namespaces
  rw [OrderedSet.ofList_toList] at hread
  exact hread

/-- **A written policy is read back as itself.** It has the same base namespace, the same classes
and namespaces in the same order, and so it accepts the same names and refuses the others in the
same way. -/
theorem readsBack_toJson (p : Policy) :
    ∃ q, ofJson p.toJson = .ok q ∧ q.baseNamespace = p.baseNamespace ∧
      q.baseClasses.toList = p.baseClasses.toList ∧ q.namespaces = p.namespaces ∧
      (∀ name, q.accepts name = p.accepts name) ∧
      ∀ position name, q.check position name = p.check position name := by
  have hread : ofJson p.toJson = .ok p := p.reads_writeJson.readAll
  exact ⟨p, hread, rfl, rfl, rfl, fun _ => rfl, fun _ _ => rfl⟩

end NameResolution.Policy
