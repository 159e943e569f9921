import Mathlib.Data.List.Nodup
import NameResolution.Proofs.ScopeArena
import NameResolution.Scope.Cursor

/-!
# Scopes are numbered in document order

Going through a tree depth first, a scope before its children and children in their order, meets the
numbers from the root on one after the other (`ScopeTree.Preorder`), and so does a cursor that
descends wherever it can (`ScopeTree.Explores`). The reason is where a builder adds scopes: the open
ones stand on the right edge of the tree (`ScopeTree.OnRightEdge`), each the last child of the one
it was opened in, so that a new scope comes after all that is there.

`ScopeTree.InDocumentOrder` puts this together with the links between parents and children and with
what scopes declare.
-/

namespace NameResolution

namespace ScopeTree

/-- Going through the scopes of a list and what is below them, depth first, visits the scopes of
another. -/
inductive Preorder (tree : ScopeTree) : List ScopeId → List ScopeId → Prop where
  | nil : Preorder tree [] []
  | cons {id : ScopeId} {rest below after : List ScopeId}
      (hbelow : Preorder tree (tree.children id) below) (hafter : Preorder tree rest after) :
      Preorder tree (id :: rest) (id :: (below ++ after))

/-- Cursors that stand inside each other, the innermost first, go on depth first: the innermost
descends as long as it can, then the next one goes on. They reach the scopes of a list. -/
inductive Explores (tree : ScopeTree) (position : SourcePosition) :
    List ScopeCursor → List ScopeId → Prop where
  | done : Explores tree position [] []
  | down {cursor inner after : ScopeCursor} {outer : List ScopeCursor} {reached : List ScopeId}
      (hdescend : cursor.descend tree position = .ok (inner, after))
      (hrest : Explores tree position (inner :: after :: outer) reached) :
      Explores tree position (cursor :: outer) (inner.scope :: reached)
  | back {cursor : ScopeCursor} {e : ResolveError} {outer : List ScopeCursor}
      {reached : List ScopeId} (hdescend : cursor.descend tree position = .error e)
      (hrest : Explores tree position outer reached) :
      Explores tree position (cursor :: outer) reached

/-- The scope is the last one of the list, or it is on the right edge below that one. -/
inductive OnRightEdge (tree : ScopeTree) : List ScopeId → ScopeId → Prop where
  | last {id : ScopeId} : OnRightEdge tree [id] id
  | inside {id target : ScopeId} (hinside : OnRightEdge tree (tree.children id) target) :
      OnRightEdge tree [id] target
  | later {id target : ScopeId} {rest : List ScopeId} (hrest : OnRightEdge tree rest target) :
      OnRightEdge tree (id :: rest) target

variable {tree tree' : ScopeTree} {forest later visited visited' : List ScopeId}
  {id target new : ScopeId}

/-! ## Traversals -/

theorem Preorder.unique (h : tree.Preorder forest visited) (h' : tree.Preorder forest visited') :
    visited = visited' := by
  induction h generalizing visited' with
  | nil =>
    cases h'
    rfl
  | cons _ _ ihbelow ihafter =>
    cases h' with
    | cons hbelow hafter => rw [ihbelow hbelow, ihafter hafter]

theorem Preorder.append (h : tree.Preorder forest visited) (h' : tree.Preorder later visited') :
    tree.Preorder (forest ++ later) (visited ++ visited') := by
  induction h with
  | nil => exact h'
  | cons hbelow _ _ ihafter =>
    rw [List.cons_append, List.cons_append, List.append_assoc]
    exact .cons hbelow ihafter

theorem Preorder.congr (h : tree.Preorder forest visited)
    (hsame : ∀ id ∈ visited, tree'.children id = tree.children id) :
    tree'.Preorder forest visited := by
  induction h with
  | nil => exact .nil
  | cons _ _ ihbelow ihafter =>
    refine .cons ?_ (ihafter fun id hid => hsame id (by simp [hid]))
    rw [hsame _ List.mem_cons_self]
    exact ihbelow fun id hid => hsame id (by simp [hid])

/-- Cursors reach what is below the children that the innermost has not taken, then the rest. -/
theorem Preorder.explores {position : SourcePosition} {scope : ScopeId} {taken : Nat}
    {outer : List ScopeCursor} {reached : List ScopeId} (h : tree.Preorder forest visited)
    (hforest : (tree.children scope).drop taken = forest)
    (houter : tree.Explores position outer reached) :
    tree.Explores position (⟨scope, taken⟩ :: outer) (visited ++ reached) := by
  induction h generalizing scope taken outer reached with
  | nil =>
    have hnone : (tree.children scope)[taken]? = none := by
      rw [← List.head?_drop, hforest]
      rfl
    exact .back (ScopeCursor.descend_of_getElem?_eq_none position hnone) houter
  | @cons id rest below after _ _ ihbelow ihafter =>
    have hsome : (tree.children scope)[taken]? = some id := by
      rw [← List.head?_drop, hforest]
      rfl
    have hrest : (tree.children scope).drop (taken + 1) = rest := by
      rw [← List.tail_drop, hforest]
      rfl
    rw [List.cons_append, List.append_assoc]
    -- inside the child first, from its first child on, then after it
    exact .down (ScopeCursor.descend_of_getElem?_eq_some position hsome)
      (ihbelow rfl (ihafter hrest houter))

/-- From the root on, cursors reach all that a traversal visits after the root. -/
theorem explores_of_preorder (h : tree.Preorder [root] visited) :
    ∃ below, (∀ position, tree.Explores position [ScopeCursor.root] below) ∧
      root :: below = visited := by
  cases h with
  | @cons _ _ below _ hbelow hafter =>
    cases hafter
    refine ⟨below, fun position => ?_, by rw [List.append_nil]⟩
    have hreached : tree.Explores position [⟨root, 0⟩] (below ++ []) := hbelow.explores rfl .done
    rwa [List.append_nil] at hreached

theorem Explores.unique {position : SourcePosition} {cursors : List ScopeCursor}
    (h : tree.Explores position cursors visited) (h' : tree.Explores position cursors visited') :
    visited = visited' := by
  induction h generalizing visited' with
  | done =>
    cases h'
    rfl
  | down hdescend _ ih =>
    cases h' with
    | down hdescend' hrest' =>
      obtain ⟨rfl, rfl⟩ := Prod.mk.inj (Except.ok.inj (hdescend.symm.trans hdescend'))
      rw [ih hrest']
    | back hdescend' _ => cases hdescend.symm.trans hdescend'
  | back hdescend _ ih =>
    cases h' with
    | down hdescend' _ => cases hdescend.symm.trans hdescend'
    | back _ hrest' => exact ih hrest'

/-! ## The right edge -/

theorem OnRightEdge.append_left (h : tree.OnRightEdge later target) (forest : List ScopeId) :
    tree.OnRightEdge (forest ++ later) target := by
  induction forest with
  | nil => exact h
  | cons id forest ih => exact .later ih

/-- The last child of a scope on the edge is on the edge. -/
theorem OnRightEdge.child (h : tree.OnRightEdge forest target)
    (hlast : (tree.children target).getLast? = some new) : tree.OnRightEdge forest new := by
  induction h with
  | last =>
    obtain ⟨earlier, hchildren⟩ := List.getLast?_eq_some_iff.mp hlast
    refine .inside ?_
    rw [hchildren]
    exact OnRightEdge.last.append_left earlier
  | inside _ ih => exact .inside (ih hlast)
  | later _ ih => exact .later (ih hlast)

theorem OnRightEdge.mem_visited (h : tree.OnRightEdge forest target)
    (hvisited : tree.Preorder forest visited) : target ∈ visited := by
  induction h generalizing visited with
  | last =>
    cases hvisited
    exact List.mem_cons_self
  | inside _ ih =>
    cases hvisited with
    | cons hbelow _ => exact List.mem_cons_of_mem _ (List.mem_append_left _ (ih hbelow))
  | later _ ih =>
    cases hvisited with
    | cons _ hafter => exact List.mem_cons_of_mem _ (List.mem_append_right _ (ih hafter))

/-- A scope added as the last child on the right edge is visited last. -/
theorem Preorder.addChild (h : tree.Preorder forest visited)
    (hedge : tree.OnRightEdge forest target) (hnodup : visited.Nodup)
    (htarget : tree'.children target = tree.children target ++ [new])
    (hnew : tree'.children new = [])
    (hsame : ∀ id ∈ visited, id ≠ target → tree'.children id = tree.children id) :
    tree'.Preorder forest (visited ++ [new]) := by
  induction hedge generalizing visited with
  | @last id =>
    cases h with
    | @cons _ _ below _ hbelow hafter =>
      cases hafter
      rw [List.append_nil] at hsame hnodup ⊢
      have hold : tree'.Preorder (tree.children id) below := by
        refine hbelow.congr fun i hi => hsame i (List.mem_cons_of_mem _ hi) ?_
        rintro rfl
        exact (List.nodup_cons.mp hnodup).1 hi
      have hadded : tree'.Preorder [new] [new] := by
        have hbelow : tree'.Preorder (tree'.children new) [] := by
          rw [hnew]
          exact .nil
        exact .cons hbelow .nil
      have hboth := hold.append hadded
      rw [← htarget] at hboth
      have hroot := Preorder.cons hboth .nil
      rwa [List.append_nil] at hroot
  | @inside id target hbelowEdge ih =>
    cases h with
    | @cons _ _ below _ hbelow hafter =>
      cases hafter
      rw [List.append_nil] at hsame hnodup ⊢
      obtain ⟨hid, hnodup⟩ := List.nodup_cons.mp hnodup
      have hne : id ≠ target := by
        rintro rfl
        exact hid (hbelowEdge.mem_visited hbelow)
      have hinside := ih hbelow hnodup htarget fun i hi => hsame i (List.mem_cons_of_mem _ hi)
      rw [← hsame id List.mem_cons_self hne] at hinside
      have hroot := Preorder.cons hinside .nil
      rwa [List.append_nil] at hroot
  | @later id target rest hrestEdge ih =>
    cases h with
    | @cons _ _ below after hbelow hafter =>
      have hmem := hrestEdge.mem_visited hafter
      obtain ⟨hid, hnodup⟩ := List.nodup_cons.mp hnodup
      obtain ⟨-, hnodupAfter, hdisjoint⟩ := List.nodup_append.mp hnodup
      have hne : id ≠ target := by
        rintro rfl
        exact hid (List.mem_append_right _ hmem)
      have hfirst : tree'.Preorder (tree'.children id) below := by
        rw [hsame id List.mem_cons_self hne]
        refine hbelow.congr fun i hi => hsame i (by simp [hi]) ?_
        exact hdisjoint i hi target hmem
      have hrest := ih hafter hnodupAfter htarget fun i hi => hsame i (by simp [hi])
      rw [List.cons_append, List.append_assoc]
      exact .cons hfirst hrest

/-- Each open scope is the last child of the one that it was opened in, the innermost first. -/
def LastChildren (tree : ScopeTree) : List ScopeId → Prop
  | [] => True
  | id :: outer =>
    (tree.children (outer.headD root)).getLast? = some id ∧ tree.LastChildren outer

theorem LastChildren.onRightEdge {opened : List ScopeId} (h : tree.LastChildren opened) :
    tree.OnRightEdge [root] (opened.headD root) := by
  induction opened with
  | nil => exact .last
  | cons id outer ih =>
    obtain ⟨hlast, houter⟩ := h
    exact (ih houter).child hlast

/-- A scope has a smaller number than what is opened in it, so changes of the innermost open scope
leave the others as they are. -/
theorem LastChildren.congr {opened : List ScopeId} (hlinked : tree.Linked)
    (h : tree.LastChildren opened)
    (hsame : ∀ id < opened.headD root, tree'.children id = tree.children id) :
    tree'.LastChildren opened := by
  induction opened with
  | nil => trivial
  | cons id outer ih =>
    obtain ⟨hlast, houter⟩ := h
    have hlt : outer.headD root < id :=
      (hlinked.lt_of_mem_children (List.mem_of_getLast? hlast)).1
    refine ⟨?_, ih houter fun i hi => hsame i (Nat.lt_trans hi hlt)⟩
    rw [hsame _ hlt]
    exact hlast

namespace Builder

/-- The tree is linked, the open scopes stand on its right edge, and the numbers of the scopes are
their places in document order. -/
structure InOrder (b : Builder) : Prop where
  linked : b.tree.Linked
  lastChildren : b.tree.LastChildren b.opened
  preorder : b.tree.Preorder [root] (List.range b.tree.size)

theorem inOrder_start : start.InOrder where
  linked := linked_rootOnly
  lastChildren := trivial
  preorder := by
    have hchildren : rootOnly.Preorder (rootOnly.children root) [] := .nil
    exact .cons hchildren .nil

variable {b : Builder}

theorem InOrder.push (h : b.InOrder) (name : String) (kind : ScopeKind) (owner : Option String) :
    (b.push name kind owner).InOrder := by
  have hlt := b.current_lt
  have hnew : (b.push name kind owner).tree.children b.tree.size = [] := by
    rw [Builder.push, children_addScope, if_pos rfl]
  have hcurrent : (b.push name kind owner).tree.children b.current =
      b.tree.children b.current ++ [b.tree.size] := by
    rw [Builder.push, children_addScope, if_neg (Nat.ne_of_lt hlt), if_pos rfl]
  have hsame (id : ScopeId) (hid : id < b.tree.size) (hne : id ≠ b.current) :
      (b.push name kind owner).tree.children id = b.tree.children id := by
    rw [Builder.push, children_addScope, if_neg (Nat.ne_of_lt hid), if_neg hne]
  refine ⟨h.linked.addScope hlt name kind owner, ⟨?_, ?_⟩, ?_⟩
  · show ((b.push name kind owner).tree.children b.current).getLast? = some b.tree.size
    rw [hcurrent, List.getLast?_concat]
  · refine h.lastChildren.congr h.linked fun id hid => ?_
    exact hsame id (Nat.lt_trans hid hlt) (Nat.ne_of_lt hid)
  · rw [size_push, List.range_succ]
    refine h.preorder.addChild h.lastChildren.onRightEdge List.nodup_range hcurrent hnew ?_
    intro id hid hne
    exact hsame id (List.mem_range.mp hid) hne

theorem InOrder.exit (h : b.InOrder) : b.exit.InOrder := by
  refine ⟨h.linked, ?_, h.preorder⟩
  show b.tree.LastChildren b.opened.tail
  cases hopened : b.opened with
  | nil => trivial
  | cons id outer =>
    have hlast := h.lastChildren
    rw [hopened] at hlast
    exact hlast.2

theorem InOrder.declare (h : b.InOrder) (d : Declaration) : (b.declare d).InOrder := by
  have hsame (id : ScopeId) : (b.declare d).tree.children id = b.tree.children id :=
    children_declare b.tree d
  refine ⟨h.linked.declare d, ?_, ?_⟩
  · exact h.lastChildren.congr h.linked fun id _ => hsame id
  · rw [size_declare]
    exact h.preorder.congr fun id _ => hsame id

theorem InOrder.run (h : b.InOrder) (steps : List BuildStep) : (b.run steps).InOrder :=
  run_induction (P := InOrder) (fun _ name kind owner h => h.push name kind owner)
    (fun _ h => h.exit) (fun _ d h => h.declare d) h steps

end Builder

/-- Scopes stand in a tree as they were entered: linked, numbered in document order, each declaring
names under their own tables. -/
structure InDocumentOrder (tree : ScopeTree) : Prop where
  size_pos : 0 < tree.size
  /-- The root is the only scope without a parent, and parents have smaller numbers. -/
  parent_eq_none_iff : ∀ {id scope}, tree.get? id = some scope → (scope.parent = none ↔ id = root)
  parent_lt : ∀ {id scope p}, tree.get? id = some scope → scope.parent = some p → p < id
  /-- A scope is among the children of its parent, once, and among no other's. -/
  mem_children_iff : ∀ {p c}, c ∈ tree.children p ↔
    ∃ scope, tree.get? c = some scope ∧ scope.parent = some p
  count_children : ∀ {p c}, c ∈ tree.children p → (tree.children p).count c = 1
  children_increasing : ∀ p, (tree.children p).Pairwise (· < ·)
  /-- Depth first from the root, the numbers come one after the other. -/
  preorder_iff : ∀ visited, tree.Preorder [root] visited ↔ visited = List.range tree.size
  /-- A cursor on the root that goes on depth first reaches the others as they were entered. -/
  explores_iff : ∀ position reached, tree.Explores position [ScopeCursor.root] reached ↔
    root :: reached = List.range tree.size
  /-- From a scope outward the numbers fall down to the root. -/
  ancestors_decreasing : ∀ id, ((tree.ancestors id).map Prod.fst).Pairwise (· > ·)
  head?_ancestors : ∀ id < tree.size, ((tree.ancestors id).map Prod.fst).head? = some id
  getLast?_ancestors : ∀ id < tree.size, ((tree.ancestors id).map Prod.fst).getLast? = some root
  ancestors_eq_nil : ∀ id, tree.size ≤ id → tree.ancestors id = []
  /-- What a scope declares is found in the table of its kind under its own name, and nothing else
  is found in a table. -/
  find?_of_mem : ∀ {id scope d}, tree.get? id = some scope → d ∈ scope.declarations →
    scope.find? d.kind.nameType d.name = some d
  eq_of_find? : ∀ {id scope kind name d}, tree.get? id = some scope →
    scope.find? kind name = some d → d ∈ scope.declarations ∧ d.kind.nameType = kind ∧ d.name = name

/-- What a builder keeps makes its tree one in document order. -/
theorem Builder.InOrder.inDocumentOrder {b : Builder} (h : b.InOrder) (htabled : b.Tabled) :
    b.tree.InDocumentOrder := by
  have hlinked := h.linked
  obtain ⟨below, hexplores, hrange⟩ := explores_of_preorder h.preorder
  exact {
    size_pos := hlinked.size_pos
    parent_eq_none_iff := by
      intro id scope hget
      have hroot := hlinked.parent?_eq_none_iff (lt_size_of_get? hget)
      rwa [parent?, hget, Option.bind_some] at hroot
    parent_lt := b.tree.parent_lt
    mem_children_iff := hlinked.mem_children_iff.trans Option.bind_eq_some_iff
    count_children := fun {p c} hc =>
      List.count_eq_one_of_mem ((hlinked.children_increasing p).imp Nat.ne_of_lt) hc
    children_increasing := hlinked.children_increasing
    preorder_iff := fun visited => ⟨fun hv => hv.unique h.preorder, fun hv => hv ▸ h.preorder⟩
    explores_iff := by
      intro position reached
      constructor
      · intro hreached
        rw [hreached.unique (hexplores position), hrange]
      · intro hreached
        obtain rfl : reached = below := (List.cons.inj (hreached.trans hrange.symm)).2
        exact hexplores position
    ancestors_decreasing := b.tree.pairwise_ancestors
    head?_ancestors := fun id => head?_ancestors
    getLast?_ancestors := fun id => hlinked.getLast?_ancestors
    ancestors_eq_nil := fun id hid => ancestors_of_get?_eq_none (get?_eq_none_iff.mpr hid)
    find?_of_mem := fun hget hd => htabled _ _ hget _ hd
    eq_of_find? := fun {id scope kind name d} _ hfind =>
      ⟨List.mem_of_find?_eq_some hfind, Declaration.answers_iff.mp (List.find?_some hfind)⟩ }

theorem lists_rootOnly : rootOnly.Lists [("<root>", .root, none)] := by
  intro id
  cases id <;> rfl

/-- **Every tree that can be built is numbered in document order,** which is the order in which its
scopes were entered, and its tables have what was declared in a scope, the last one for a name. -/
theorem build_inDocumentOrder (steps : List BuildStep) :
    (build steps).InDocumentOrder ∧
      (∀ id, ((build steps).get? id).map Scope.heading =
        (("<root>", ScopeKind.root, none) :: steps.filterMap BuildStep.heading?)[id]?) ∧
      ∀ id kind name, ((build steps).get? id).bind (·.find? kind name) =
        (Builder.start.declaredIn id steps).find? (·.answers kind name) := by
  have hinOrder := Builder.inOrder_start.run steps
  have htabled := Builder.tabled_start.run steps
  have hrecords := Records.run (b := Builder.start) records_rootOnly steps
  simp only [List.append_nil] at hrecords
  exact ⟨hinOrder.inDocumentOrder htabled, Lists.run (b := Builder.start) lists_rootOnly steps,
    hrecords⟩

end ScopeTree

end NameResolution
