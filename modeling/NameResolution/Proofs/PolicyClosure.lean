import NameResolution.Policy
import NameResolution.Proofs.DottedNames

/-!
# Policies admit names by segments

A policy takes a namespace off a name by its text, the dot after it included. What it admits can be
said by segments alone: the name begins with the segments of an allowed namespace, whatever dots
stand in either (`isWithin_iff`). The one name left out is the namespace with a final dot, which has
nothing inside the namespace to name.
-/

namespace NameResolution.Policy

theorem acceptsBaseClass_iff {p : Policy} {name : String} :
    p.acceptsBaseClass name = true ↔
      ∃ cls ∈ p.baseClasses, cls ≠ "" ∧ name = p.baseNamespace ++ "." ++ cls := by
  simp only [← Dotted.stripNamespace_eq_some_iff]
  unfold acceptsBaseClass
  cases Dotted.stripNamespace p.baseNamespace name with
  | none => simp
  | some cls => simp [eq_comm]

theorem isWithin_iff_eq_or_append {name ns : String} :
    isWithin name ns = true ↔ name = ns ∨ ∃ rest, rest ≠ "" ∧ name = ns ++ "." ++ rest := by
  simp only [isWithin, Bool.or_eq_true, beq_iff_eq, Option.isSome_iff_exists,
    Dotted.stripNamespace_eq_some_iff]

theorem isWithin_iff {name ns : String} :
    isWithin name ns = true ↔
      Dotted.segments ns <+: Dotted.segments name ∧ name ≠ ns ++ "." := by
  rw [isWithin_iff_eq_or_append, Dotted.segments_prefix_iff]
  constructor
  · rintro (rfl | ⟨rest, hrest, rfl⟩)
    · refine ⟨.inl rfl, fun heq => ?_⟩
      have hlength := congrArg String.length heq
      simp at hlength
    · refine ⟨.inr ⟨rest, rfl⟩, ?_⟩
      simpa using hrest
  · rintro ⟨rfl | ⟨rest, rfl⟩, hne⟩
    · exact .inl rfl
    · refine .inr ⟨rest, ?_, rfl⟩
      rintro rfl
      exact hne String.append_empty

/-- A policy that lists more accepts more. -/
theorem accepts_of_subset {p q : Policy} {name : String}
    (hbase : p.baseNamespace = q.baseNamespace)
    (hclasses : ∀ cls ∈ p.baseClasses.toList, cls ∈ q.baseClasses.toList)
    (hnamespaces : ∀ ns ∈ p.namespaces, ns ∈ q.namespaces) (h : p.accepts name = true) :
    q.accepts name = true := by
  rw [accepts_iff, acceptsBaseClass_iff] at h ⊢
  rcases h with hthis | ⟨cls, hcls, hne, rfl⟩ | ⟨ns, hns, hwithin⟩
  · exact .inl hthis
  · exact .inr (.inl ⟨cls, hclasses cls hcls, hne, by rw [hbase]⟩)
  · exact .inr (.inr ⟨ns, hnamespaces ns hns, hwithin⟩)

/-- **A policy accepts what it lists, by whole segments.** Beside `this`, these are the allowed
classes of the base library and the names that begin with the segments of an allowed namespace. A
check passes the accepted names and refuses the others as they are written. -/
theorem accepts_iff_segments (p : Policy) (name : String) :
    (p.accepts name = true ↔ name = "this" ∨
      (∃ cls ∈ p.baseClasses, cls ≠ "" ∧ name = p.baseNamespace ++ "." ++ cls) ∨
      ∃ ns ∈ p.namespaces, Dotted.segments ns <+: Dotted.segments name ∧ name ≠ ns ++ ".") ∧
    ∀ position, (p.check position name = .ok () ↔ p.accepts name = true) ∧
      (p.check position name = .error (.forbiddenName position name) ↔
        p.accepts name = false) := by
  refine ⟨?_, fun position => ⟨p.check_eq_ok_iff position name, ?_⟩⟩
  · rw [accepts_iff, acceptsBaseClass_iff]
    simp only [isWithin_iff]
  · unfold check
    split <;> simp_all

end NameResolution.Policy
