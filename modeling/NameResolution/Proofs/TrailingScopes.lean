import NameResolution.Proofs.DocumentOrder
import NameResolution.Proofs.Findings
import NameResolution.Proofs.LargerTrees
import NameResolution.Proofs.ParallelWalks

/-!
# Scopes that come last are not seen

A scope tree may hold more scopes than the syntax tree opens contours. Where the scopes of one tree
are part of another, as the first children of each scope in their order, a walk goes through the
same scopes in both: it counts children from the first on, and a lookup goes outward only. So the
outcomes are equal (`resolveFile_partOf`), unless the smaller tree has too few scopes.

Such scopes have other numbers in the larger tree as soon as one is added before them, so the two
are compared along the map of their numbers (`ScopeTree.PartOf`).
-/

namespace NameResolution

/-- The same errors, but a walk of the smaller tree may also stop for want of a scope. -/
def mismatchFirst : ErrorMatch where
  pairs := Eq
  stopsFirst e := ∃ position name count, e = .scopeMismatch position name count
  stopsSecond _ := False

/-- The walks of a file in a scope tree and in a larger one. -/
def partWalks {tree tree' : ScopeTree} {place : ScopeId → ScopeId} (h : tree.PartOf tree' place)
    (hlinked : tree.Linked) (file : FileId) (policy : Policy) :
    Parallel mismatchFirst ⟨file, tree, policy⟩ ⟨file, tree', policy⟩ id where
  scopes := fun s s' => s < tree.size ∧ s' = place s
  found := Eq
  policy_eq := rfl
  outerInstance := fun _ _ _ => rfl
  forbiddenName := fun _ _ => rfl
  answers := by
    rintro s _ ⟨hs, rfl⟩
    exact h.sameAnswers hs
  childAt := by
    rintro s _ ⟨-, rfl⟩ start index
    rw [Context.childAt, Context.childAt]
    cases hchild : (tree.children s)[index]? with
    | some child =>
      dsimp only
      rw [h.getElem?_children hchild]
      exact .ok ⟨(hlinked.lt_of_mem_children (List.mem_of_getElem? hchild)).2, rfl⟩
    | none => exact .inr (.inl ⟨_, rfl, _, _, _, rfl⟩)
  record := by
    rintro r _ rfl start occurrence
    exact .refl (fun _ => rfl) _

/-- **Scopes that come last are not seen.** If a file does not lack a scope, it resolves in the same
way when scopes are added to its scope tree after those that it had. -/
theorem resolveFile_partOf (file : FileId) (root : Node) (policy : Policy)
    (steps : List ScopeTree.BuildStep) (tree' : ScopeTree) (place : ScopeId → ScopeId)
    (hpart : (ScopeTree.build steps).PartOf tree' place)
    (henough : ∀ position name count,
      resolveFile file root (.build steps) policy ≠ .error (.scopeMismatch position name count)) :
    resolveFile file root tree' policy = resolveFile file root (.build steps) policy := by
  have hlinked : (ScopeTree.build steps).Linked :=
    (ScopeTree.Builder.inOrder_start.run steps).linked
  have hstep : mismatchFirst.InStep Eq (resolveFile file root (.build steps) policy)
      (resolveFile file root tree' policy) := by
    have hwalks := (partWalks hpart hlinked file policy).resolveFile
      ⟨hlinked.size_pos, hpart.place_root.symm⟩ rfl root
    rwa [Node.mapStart_id] at hwalks
  rcases hstep with hagree | ⟨e, herror, position, name, count, rfl⟩ | ⟨e, -, hstop⟩
  · exact hagree.eq.symm
  · exact absurd herror (henough position name count)
  · exact hstop.elim

/-- Two blocks, of which the second uses its variable. -/
def secondBlockUse : Node :=
  .compilationUnit [.block ⟨1, 0⟩ [], .block ⟨2, 0⟩ [.simpleName ⟨2, 2⟩ "x"]]

def secondBlockSteps : List ScopeTree.BuildStep :=
  [.enter .compilationUnit "unit", .enter .block "first", .exit, .enter .block "second",
    .declareVariable "x"]

/-- One more scope in the first block, which moves the second one on, and a class after it. -/
def trailedScopes : ScopeTree :=
  .build
    [.enter .compilationUnit "unit", .enter .block "first", .enter .block "inner",
      .declareVariable "x", .exit, .exit, .enter .block "second", .declareVariable "x", .exit,
      .enterMembers "Late" "a.Late", .declareField "x" false]

theorem partOf_trailedScopes :
    (ScopeTree.build secondBlockSteps).PartOf trailedScopes fun id => if id = 3 then 4 else id :=
  ScopeTree.PartOf.of_get? (fun id => if id = 1 then [5] else if id = 2 then [3] else []) rfl
    (by decide +kernel)

theorem partOf_secondBlockUse :
    ∃ r, resolveFile ⟨0⟩ secondBlockUse (.build secondBlockSteps) .default = .ok r ∧
      r.identifiers.size = 1 ∧ resolveFile ⟨0⟩ secondBlockUse trailedScopes .default = .ok r := by
  obtain ⟨r, hr⟩ : ∃ r,
      resolveFile ⟨0⟩ secondBlockUse (.build secondBlockSteps) .default = .ok r :=
    exists_eq_ok_of_isSome (by decide +kernel)
  have hsize : (resolveFile ⟨0⟩ secondBlockUse (.build secondBlockSteps) .default).map
      (·.identifiers.size) = .ok 1 := by decide +kernel
  have hsame := resolveFile_partOf ⟨0⟩ secondBlockUse .default secondBlockSteps trailedScopes _
    partOf_trailedScopes fun position name count => by rw [hr]; exact nofun
  rw [hr] at hsize
  exact ⟨r, hr, Except.ok.inj hsize, hsame.trans hr⟩

end NameResolution
