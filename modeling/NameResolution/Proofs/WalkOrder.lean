import NameResolution.Proofs.WalkStep

/-!
# A walk is its visits in document order

What a walk finds at a place depends on the place alone: on the node there, and on the scope that
counting contours gives it (`Context.visitWithin`). `Context.walk_eq_foldlM` says that a walk
records these findings in document order and stops at the first that fails; the cursor it threads
through the tree only keeps count.

`resolveFile_eq_ok_iff` draws the conclusion for a file.
-/

namespace NameResolution

namespace Context

/-- What the visit of a node finds in its scope, where its contours have the number `index`: they
open, and the node denotes something. -/
def visitIn (ctx : Context) (node : Node) (scope : ScopeId) (index : Nat) :
    Except ResolveError (Option (SourcePosition × Occurrence)) :=
  match ctx.scopes.openContours node.kind.contourDepth scope index with
  | .error lacking => .error (ctx.scopes.lacksChild (ctx.position node) lacking)
  | .ok _ => ctx.denotesAt scope node

/-- What the visit of a place finds, in a tree that stands in the scope `outer` after `taken`
contours. -/
def visitWithin (ctx : Context) (node : Node) (outer : ScopeId) (taken : Nat) (p : Place) :
    Except ResolveError (Option (SourcePosition × Occurrence)) :=
  match node.at? p, node.scopeWithin? ctx.scopes outer taken p with
  | some inner, some scope => ctx.visitIn inner scope (node.contourNumber taken p)
  | _, _ => .ok none

/-- Records what the visit of a place finds. -/
def recordVisit (ctx : Context) (node : Node) (outer : ScopeId) (taken : Nat) (found : Resolution)
    (p : Place) : Except ResolveError Resolution :=
  ctx.visitWithin node outer taken p >>= found.add

section Visits

variable {ctx : Context} {node child : Node} {outer inner : ScopeId} {taken i : Nat}

theorem visitIn_of_ok {index : Nat}
    (h : ctx.scopes.openContours node.kind.contourDepth outer index = .ok inner) :
    ctx.visitIn node outer index = ctx.denotesAt outer node := by
  rw [visitIn, h]

theorem visitIn_of_error {index : Nat} {lacking : ScopeId}
    (h : ctx.scopes.openContours node.kind.contourDepth outer index = .error lacking) :
    ctx.visitIn node outer index = .error (ctx.scopes.lacksChild (ctx.position node) lacking) := by
  rw [visitIn, h]

theorem visitWithin_nil :
    ctx.visitWithin node outer taken [] = ctx.visitIn node outer taken := by
  rw [visitWithin, Node.at?_nil, Node.scopeWithin?_nil, Node.contourNumber_nil]

theorem visitWithin_cons (h : node.Enters i child)
    (hopen : ctx.scopes.openContours node.kind.contourDepth outer taken = .ok inner) (p : Place) :
    ctx.visitWithin node outer taken (i :: p) =
      ctx.visitWithin child inner (node.takenBefore taken i) p := by
  have hscope : node.scopeWithin? ctx.scopes outer taken (i :: p) =
      child.scopeWithin? ctx.scopes inner (node.takenBefore taken i) p := by
    rw [Node.scopeWithin?_cons h, hopen]
    rfl
  rw [visitWithin, visitWithin, Node.at?_cons_of_getElem? h.getElem?, hscope,
    Node.contourNumber_cons h]

theorem recordVisit_cons (h : node.Enters i child)
    (hopen : ctx.scopes.openContours node.kind.contourDepth outer taken = .ok inner)
    (found : Resolution) (p : Place) :
    ctx.recordVisit node outer taken found (i :: p) =
      ctx.recordVisit child inner (node.takenBefore taken i) found p := by
  rw [recordVisit, visitWithin_cons h hopen, recordVisit]

theorem recordNode_eq_recordVisit (h : node.kind.contourDepth = 0) (found : Resolution) :
    ctx.recordNode node ⟨⟨outer, taken⟩, found⟩ =
      WalkState.mk ⟨outer, taken⟩ <$> ctx.recordVisit node outer taken found [] := by
  have hopen : ctx.scopes.openContours node.kind.contourDepth outer taken = .ok outer := by
    rw [h, ScopeTree.openContours]
  rw [recordNode_eq, recordVisit, visitWithin_nil, visitIn_of_ok hopen]

theorem recordVisit_of_denotes (h : ctx.denotes outer node = .ok none)
    (hopen : ctx.scopes.openContours node.kind.contourDepth outer taken = .ok inner)
    (found : Resolution) : ctx.recordVisit node outer taken found [] = .ok found := by
  rw [recordVisit, visitWithin_nil, visitIn_of_ok hopen, denotesAt, h]
  rfl

end Visits

/-! ## The walk of a tree -/

section Walk

variable {ctx : Context}

/-- Nodes walked one after the other make the visits of a list of children. -/
theorem walkAll_eq_foldlM {nodes : List Node} {parent : Node} {outer inner : ScopeId}
    {taken start i : Nat} (found : Resolution)
    (hwalk : ∀ node ∈ nodes, ∀ (outer : ScopeId) (taken : Nat) (found : Resolution),
      ctx.walk node ⟨⟨outer, taken⟩, found⟩ =
        WalkState.mk ⟨outer, taken + node.topContours⟩ <$>
          node.visits.foldlM (ctx.recordVisit node outer taken) found)
    (hvisit : ∀ j child, nodes[j]? = some child → ∀ found p,
      ctx.recordVisit parent outer taken found ((i + j) :: p) =
        ctx.recordVisit child inner (start + ((nodes.take j).map Node.topContours).sum) found p) :
    ctx.walkAll nodes ⟨⟨inner, start⟩, found⟩ =
      WalkState.mk ⟨inner, start + (nodes.map Node.topContours).sum⟩ <$>
        (Node.visitsAll i nodes).foldlM (ctx.recordVisit parent outer taken) found := by
  -- `start` and `i` move on together: a child of the scope taken for each contour passed
  induction nodes generalizing start i found with
  | nil => rfl
  | cons node rest ih =>
    have hnode : ∀ found p, ctx.recordVisit parent outer taken found (i :: p) =
        ctx.recordVisit node inner start found p := fun found p => hvisit 0 node rfl found p
    have hrest (found : Resolution) : ctx.walkAll rest ⟨⟨inner, start + node.topContours⟩, found⟩ =
        WalkState.mk ⟨inner, start + node.topContours + (rest.map Node.topContours).sum⟩ <$>
          (Node.visitsAll (i + 1) rest).foldlM (ctx.recordVisit parent outer taken) found := by
      refine ih found (fun n hn => hwalk n (List.mem_cons_of_mem _ hn)) fun j child hj found p => ?_
      have hj' := hvisit (j + 1) child hj found p
      rw [List.take_succ_cons, List.map_cons, List.sum_cons] at hj'
      rw [Nat.add_right_comm i 1 j, Nat.add_assoc start]
      exact hj'
    rw [walkAll_cons, hwalk node List.mem_cons_self, Node.visitsAll_cons, List.foldlM_append,
      List.foldlM_map, List.map_cons, List.sum_cons, ← Nat.add_assoc]
    simp only [hnode, bind_map_left, map_bind, hrest]

/-- The fields between a node and a computed value are passed without a record. -/
theorem foldlM_visits_computed {field : String} {start : LineCol} {q : Node} {rest : List Node}
    (hend : q.chainEnd.kind.startsPath = false) (outer : ScopeId) (taken : Nat)
    (found : Resolution) :
    (Node.visits ⟨.fieldAccess field, start, q :: rest⟩).foldlM
        (ctx.recordVisit ⟨.fieldAccess field, start, q :: rest⟩ outer taken) found =
      q.visits.foldlM (ctx.recordVisit q outer taken) found := by
  have hvisit : ∀ found p, ctx.recordVisit ⟨.fieldAccess field, start, q :: rest⟩ outer taken found
      (0 :: p) = ctx.recordVisit q outer taken found p :=
    fun found p => recordVisit_cons ⟨rfl, fun _ => ⟨rfl, hend⟩⟩ rfl found p
  have hroot : ctx.recordVisit ⟨.fieldAccess field, start, q :: rest⟩ outer taken found [] =
      .ok found :=
    recordVisit_of_denotes (denotes_of_leftmost? (Node.leftmost?_eq_of_qualifier? rfl) hend outer)
      rfl found
  rw [Node.visits, List.foldlM_cons, hroot, Node.visitsBelow_fieldAccess hend]
  show List.foldlM _ found (List.map _ _) = _
  rw [List.foldlM_map]
  simp only [hvisit]
  cases hq : q.qualifier? with
  | none => rfl
  | some inner =>
    have hleft : q.leftmost? = some inner.chainEnd := Node.leftmost?_eq_of_qualifier? hq
    rw [Node.chainEnd_of_qualifier?_eq_some hq] at hend
    have hopen : ctx.scopes.openContours q.kind.contourDepth outer taken = .ok outer := by
      rw [Node.contourDepth_of_qualifier? (by rw [hq]; rfl)]
      rfl
    have hpass : ctx.recordVisit q outer taken found [] = .ok found :=
      recordVisit_of_denotes (denotes_of_leftmost? hleft hend outer) hopen found
    rw [Node.visits, List.foldlM_cons, hpass]
    rfl

/-- **A walk records its visits in document order.** The cursor ends with one more child taken for
each outermost contour of the tree. -/
theorem walk_eq_foldlM (node : Node) (outer : ScopeId) (taken : Nat) (found : Resolution) :
    ctx.walk node ⟨⟨outer, taken⟩, found⟩ =
      WalkState.mk ⟨outer, taken + node.topContours⟩ <$>
        node.visits.foldlM (ctx.recordVisit node outer taken) found := by
  induction node using Node.walkInduction generalizing outer taken found with
  | empty field start =>
    rw [walk_fieldAccess_nil, Node.topContours_of_visitsBelow_eq_nil rfl, Node.visits,
      List.foldlM_cons, recordVisit_of_denotes rfl rfl]
    rfl
  | path field start q rest hend =>
    have hbelow : Node.visitsBelow ⟨.fieldAccess field, start, q :: rest⟩ = [] :=
      Node.visitsBelow_of_startsPath hend
    rw [walk_of_startsPath hend, recordNode_eq_recordVisit rfl,
      Node.topContours_of_visitsBelow_eq_nil hbelow, Node.visits, hbelow]
    simp
  | computed field start q rest hend ih =>
    rw [walk_computed hend, ih, Node.topContours_fieldAccess hend, foldlM_visits_computed hend]
  | inner node hkind ih =>
    have henters (j : Nat) (child : Node) (hj : node.children[j]? = some child) :
        node.Enters j child := ⟨hj, fun h => absurd h (by simp [hkind])⟩
    cases hdepth : node.kind.contourDepth with
    | zero =>
      have hopens := Node.opensAt_nil_of_eq_zero hdepth
      have hopen : ctx.scopes.openContours node.kind.contourDepth outer taken = .ok outer := by
        rw [hdepth]
        rfl
      rw [walk_of_contourDepth_eq_zero hkind hdepth, recordNode_eq_recordVisit hdepth,
        Node.topContours_of_not_opens hkind hopens, Node.visits, List.foldlM_cons,
        Node.visitsBelow_of_isFieldAccess_eq_false hkind, bind_map_left, map_bind]
      congr 1
      funext found
      -- the children share the scope and go on counting
      apply walkAll_eq_foldlM found fun node hnode => ih node hnode
      intro j child hj found p
      rw [Nat.zero_add, recordVisit_cons (henters j child hj) hopen, Node.takenBefore, hopens]
      rfl
    | succ more =>
      have hopens := Node.opensAt_nil_of_eq_succ hdepth
      rw [walk_of_contourDepth hdepth, Node.topContours_of_opens hkind hopens, Node.visits,
        List.foldlM_cons, Node.visitsBelow_of_isFieldAccess_eq_false hkind]
      cases hopen : ctx.scopes.openContours (more + 1) outer taken with
      | error lacking =>
        rw [recordVisit, visitWithin_nil, visitIn_of_error (hdepth ▸ hopen)]
        rfl
      | ok inner =>
        have hroot : ctx.recordVisit node outer taken found [] = .ok found :=
          recordVisit_of_denotes (denotes_of_contourDepth hdepth outer) (hdepth ▸ hopen) found
        -- the children stand in a scope of their own and count from its first child on
        have hinside : ctx.walkAll node.children ⟨⟨inner, 0⟩, found⟩ =
            WalkState.mk ⟨inner, 0 + (node.children.map Node.topContours).sum⟩ <$>
              (Node.visitsAll 0 node.children).foldlM (ctx.recordVisit node outer taken)
                found := by
          apply walkAll_eq_foldlM found fun node hnode => ih node hnode
          intro j child hj found p
          rw [Nat.zero_add, recordVisit_cons (henters j child hj) (hdepth ▸ hopen),
            Node.takenBefore, hopens]
          rfl
        rw [hroot]
        show (ctx.walkAll node.children ⟨.onScope inner, found⟩ >>= fun inside =>
          pure ⟨⟨outer, taken + 1⟩, inside.found⟩) = WalkState.mk _ <$> List.foldlM _ found _
        rw [ScopeCursor.onScope, hinside, bind_map_left, map_eq_pure_bind]

end Walk

end Context

end NameResolution
