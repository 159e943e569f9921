import Mathlib.Data.Finset.Card
import Mathlib.Data.Finset.Range
import Mathlib.Logic.Relation
import NameResolution.Proofs.DottedNames
import NameResolution.TypeTable

/-!
# The chain of enclosing types

Going outward from a type either ends or comes back to a type that was passed. Where no type
encloses itself (`TypeTable.Acyclic`), the chain meets no type twice, so it has no more types than
the table and as many steps are enough: the chain of a type is the type before the chain of the type
that encloses it (`Acyclic.enclosingChain_eq`). The last type of the chain is the root
(`Acyclic.rootOf?_eq_some_iff`), which `TypeTable.RootOf` describes without a chain.
-/

namespace NameResolution.TypeTable

/-- The number of the type that encloses a type; the table need not have it. -/
def enclosing? (table : TypeTable) (id : TypeId) : Option TypeId :=
  (table.get? id).bind TypeDecl.enclosing

/-- The type `outer` encloses the type `id` directly. -/
def Encloses (table : TypeTable) (id outer : TypeId) : Prop := table.enclosing? id = some outer

/-- No type encloses itself, directly or through other types. -/
def Acyclic (table : TypeTable) : Prop := ∀ id, ¬ Relation.TransGen table.Encloses id id

/-- Going outward from a type ends at `root`, because no type of the table encloses it. -/
inductive RootOf (table : TypeTable) : TypeId → TypeId → Prop where
  | top {id : TypeId} {decl : TypeDecl} (hget : table.get? id = some decl)
      (houter : ∀ outer, decl.enclosing = some outer → table.get? outer = none) :
      RootOf table id id
  | nested {id outer root : TypeId} {decl : TypeDecl} (hget : table.get? id = some decl)
      (houter : decl.enclosing = some outer) (hroot : RootOf table outer root) :
      RootOf table id root

variable {table : TypeTable} {id outer root : TypeId} {decl : TypeDecl}

/-- A table has no cycle when something gets smaller from a type to the one that encloses it. -/
theorem acyclic_of_lt (rank : TypeId → Nat)
    (h : ∀ id outer, table.enclosing? id = some outer → rank outer < rank id) : table.Acyclic := by
  have hlt {id outer : TypeId} (hout : Relation.TransGen table.Encloses id outer) :
      rank outer < rank id := by
    induction hout with
    | single hencl => exact h _ _ hencl
    | tail _ hencl ih => exact Nat.lt_trans (h _ _ hencl) ih
  intro id hcycle
  exact Nat.lt_irrefl _ (hlt hcycle)

theorem encloses_of_get? (hget : table.get? id = some decl) (houter : decl.enclosing = some outer) :
    table.Encloses id outer := by
  unfold Encloses enclosing?
  rw [hget, Option.bind_some, houter]

/-! ## Chains without a cycle -/

theorem chainFrom_succ (hget : table.get? id = some decl) (steps : Nat) :
    table.chainFrom (steps + 1) id =
      (id, decl) :: (decl.enclosing.map (table.chainFrom steps)).getD [] := by
  unfold chainFrom
  simp only [hget]
  cases decl.enclosing <;> rfl

/-- A chain that is shorter than its steps allow does not need the last one. -/
theorem chainFrom_succ_of_length_le {steps : Nat}
    (h : (table.chainFrom (steps + 1) id).length ≤ steps) :
    table.chainFrom (steps + 1) id = table.chainFrom steps id := by
  induction steps generalizing id with
  | zero => exact List.length_eq_zero_iff.mp (Nat.le_zero.mp h)
  | succ steps ih =>
    cases hget : table.get? id with
    | none => rw [chainFrom_of_get?_eq_none hget, chainFrom_of_get?_eq_none hget]
    | some decl =>
      rw [chainFrom_succ hget] at h ⊢
      rw [chainFrom_succ hget]
      cases hout : decl.enclosing with
      | none => rfl
      | some outer =>
        simp only [hout, Option.map_some, Option.getD_some, List.length_cons] at h ⊢
        rw [ih (by omega)]

/-- What stands on a chain is reached by going outward. -/
theorem reflTransGen_of_mem_chainFrom {steps : Nat} {entry : TypeId × TypeDecl}
    (h : entry ∈ table.chainFrom steps id) :
    Relation.ReflTransGen table.Encloses id entry.1 ∧ table.get? entry.1 = some entry.2 := by
  induction steps generalizing id with
  | zero => cases h
  | succ steps ih =>
    cases hget : table.get? id with
    | none =>
      rw [chainFrom_of_get?_eq_none hget] at h
      cases h
    | some decl =>
      rw [chainFrom_succ hget, List.mem_cons] at h
      rcases h with rfl | h
      · exact ⟨.refl, hget⟩
      · cases hout : decl.enclosing with
        | none => simp [hout] at h
        | some outer =>
          simp only [hout, Option.map_some, Option.getD_some] at h
          obtain ⟨hreach, hentry⟩ := ih h
          exact ⟨.head (encloses_of_get? hget hout) hreach, hentry⟩

theorem enclosingChain_of_get?_eq_none (hget : table.get? id = none) :
    table.enclosingChain id = [] :=
  chainFrom_of_get?_eq_none hget table.size

theorem rootOf?_of_get?_eq_none (hget : table.get? id = none) : table.rootOf? id = none := by
  unfold rootOf?
  rw [enclosingChain_of_get?_eq_none hget]
  rfl

namespace Acyclic

variable (hacyclic : table.Acyclic)
include hacyclic

theorem nodup_chainFrom (steps : Nat) (id : TypeId) :
    ((table.chainFrom steps id).map Prod.fst).Nodup := by
  induction steps generalizing id with
  | zero => exact .nil
  | succ steps ih =>
    cases hget : table.get? id with
    | none => simp [chainFrom_of_get?_eq_none hget]
    | some decl =>
      rw [chainFrom_succ hget]
      cases hout : decl.enclosing with
      | none => simp
      | some outer =>
        refine List.nodup_cons.mpr ⟨fun hid => ?_, ih outer⟩
        -- the type comes back on the chain of the type that encloses it
        obtain ⟨entry, hentry, rfl⟩ := List.mem_map.mp hid
        obtain ⟨hreach, -⟩ := reflTransGen_of_mem_chainFrom hentry
        exact hacyclic _ (.head' (encloses_of_get? hget hout) hreach)

theorem length_chainFrom_le (steps : Nat) (id : TypeId) :
    (table.chainFrom steps id).length ≤ table.size := by
  have hsub : ((table.chainFrom steps id).map Prod.fst).toFinset ⊆ Finset.range table.size := by
    intro i hi
    obtain ⟨entry, hentry, rfl⟩ := List.mem_map.mp (List.mem_toFinset.mp hi)
    obtain ⟨-, hget⟩ := reflTransGen_of_mem_chainFrom hentry
    obtain ⟨hlt, -⟩ := Array.getElem?_eq_some_iff.mp hget
    exact Finset.mem_range.mpr hlt
  have hcard := Finset.card_le_card hsub
  rw [List.toFinset_card_of_nodup (hacyclic.nodup_chainFrom steps id)] at hcard
  simpa using hcard

/-- **The chain of a type is the type before the chain of the type that encloses it.** -/
theorem enclosingChain_eq (hget : table.get? id = some decl) :
    table.enclosingChain id =
      (id, decl) :: (decl.enclosing.map table.enclosingChain).getD [] := by
  have hsteps : table.enclosingChain id = table.chainFrom (table.size + 1) id :=
    (chainFrom_succ_of_length_le (hacyclic.length_chainFrom_le _ id)).symm
  rw [hsteps, chainFrom_succ hget]
  rfl

/-! ## The root -/

/-- The root of a type is that of the type that encloses it, if the table has that type. -/
theorem rootOf?_eq (hget : table.get? id = some decl) :
    table.rootOf? id = some ((decl.enclosing.bind table.rootOf?).getD id) := by
  unfold rootOf?
  rw [hacyclic.enclosingChain_eq hget, List.getLast?_cons]
  cases decl.enclosing with
  | none => rfl
  | some outer =>
    simp only [Option.map_some, Option.getD_some, Option.bind_some]
    cases (table.enclosingChain outer).getLast? <;> rfl

theorem rootOf?_of_rootOf (h : table.RootOf id root) : table.rootOf? id = some root := by
  induction h with
  | @top id decl hget houter =>
    rw [hacyclic.rootOf?_eq hget]
    cases hout : decl.enclosing with
    | none => rfl
    | some outer =>
      rw [Option.bind_some, rootOf?_of_get?_eq_none (houter outer hout)]
      rfl
  | nested hget houter _ ih =>
    rw [hacyclic.rootOf?_eq hget, houter, Option.bind_some, ih]
    rfl

/-- Every type of the table has a root. -/
theorem exists_rootOf (hget : table.get? id = some decl) : ∃ root, table.RootOf id root := by
  -- the chain gets shorter from a type to the one that encloses it
  induction hn : (table.enclosingChain id).length using Nat.strongRecOn generalizing id decl with
  | ind n ih =>
    cases hout : decl.enclosing with
    | none => exact ⟨id, .top hget fun outer houter => by simp [hout] at houter⟩
    | some outer =>
      cases hget' : table.get? outer with
      | none =>
        refine ⟨id, .top hget fun other hother => ?_⟩
        obtain rfl : outer = other := Option.some.inj (hout.symm.trans hother)
        exact hget'
      | some decl' =>
        have hlt : (table.enclosingChain outer).length < n := by
          rw [← hn, hacyclic.enclosingChain_eq hget, hout]
          exact Nat.lt_succ_self _
        obtain ⟨root, hroot⟩ := ih _ hlt hget' rfl
        exact ⟨root, .nested hget hout hroot⟩

theorem rootOf?_eq_some_iff : table.rootOf? id = some root ↔ table.RootOf id root := by
  constructor
  · intro h
    cases hget : table.get? id with
    | none =>
      rw [rootOf?_of_get?_eq_none hget] at h
      cases h
    | some decl =>
      obtain ⟨root', hroot⟩ := hacyclic.exists_rootOf hget
      rw [hacyclic.rootOf?_of_rootOf hroot] at h
      exact Option.some.inj h ▸ hroot
  · exact hacyclic.rootOf?_of_rootOf

theorem nestingPath?_top (hget : table.get? id = some decl)
    (houter : ∀ outer, decl.enclosing = some outer → table.get? outer = none) :
    table.nestingPath? id = some (decl.simpleName, decl) := by
  have hchain : table.enclosingChain id = [(id, decl)] := by
    rw [hacyclic.enclosingChain_eq hget]
    cases hout : decl.enclosing with
    | none => rfl
    | some outer =>
      simp only [Option.map_some, Option.getD_some]
      rw [enclosingChain_of_get?_eq_none (houter outer hout)]
  unfold nestingPath?
  rw [hchain]
  show some (Dotted.join [decl.simpleName], decl) = _
  rw [Dotted.join_singleton]

/-- A root is named by its package and its simple name. -/
theorem sourceName?_of_rootOf (h : table.RootOf id root) :
    ∃ decl, table.get? root = some decl ∧
      table.sourceName? root = some (below decl.package decl.simpleName) := by
  induction h with
  | nested _ _ _ ih => exact ih
  | @top root decl hget houter =>
    refine ⟨decl, hget, ?_⟩
    unfold sourceName?
    rw [hacyclic.nestingPath?_top hget houter]
    rfl

end Acyclic

end NameResolution.TypeTable
