import NameResolution.Scope.Builder
import NameResolution.Scope.Cursor

/-!
# Calls on cursors that share a tree

A program holds cursors on one tree and calls them in any order; a cursor that a call gives it is
held from then on and can be called in its turn (`ScopeTree.answers`). The number of `descend` calls
that a cursor has had, as far as there were children for them, is all that it knows besides its
scope (`ScopeTree.cursorAfter`), and calls on other cursors do not touch it
(`ScopeTree.getElem?_heldAfter`). So a cursor hands out the children of its scope one by one, and
then fails without moving (`ScopeTree.cursor_handsOutChildren`).
-/

namespace NameResolution

/-- What a cursor can be asked about the place where it stands. -/
inductive CursorQuery where
  | scope
  | innermostType
  | method (name : String)
  | identifier (name : String)
  | type (name : String)
deriving DecidableEq, Repr

/-- What a query finds. -/
inductive CursorFinding where
  | scope (id : ScopeId)
  | innermostType (owner : Option String)
  | name {kind : NameType} (found : Option (QualifiedName kind))
deriving DecidableEq, Repr

/-- A call on a cursor. -/
inductive CursorCall where
  /-- Take the next child. -/
  | descend (position : SourcePosition)
  /-- Make a second cursor that stands as this one does. -/
  | clone
  /-- Put a new cursor on a scope of the same tree. -/
  | place (id : ScopeId)
  | ask (query : CursorQuery)
deriving DecidableEq, Repr

/-- The answer to a call. -/
inductive CursorAnswer where
  | descended (outcome : Except ResolveError ScopeCursor)
  | placed (cursor : ScopeCursor)
  | told (finding : CursorFinding)
deriving Repr

/-- The cursors that an answer brings. -/
def CursorAnswer.brings : CursorAnswer → List ScopeCursor
  | .descended (.ok cursor) | .placed cursor => [cursor]
  | .descended (.error _) | .told _ => []

/-- A call and the number of the held cursor it is made on. -/
structure CursorUse where
  number : Nat
  call : CursorCall
deriving DecidableEq, Repr

/-- The use takes a child, or tries to, of the cursor numbered `h`. -/
def CursorUse.descendsOn (h : Nat) : CursorUse → Bool
  | ⟨number, .descend _⟩ => number == h
  | _ => false

/-- How often `descend` is called on the cursor numbered `h`. -/
def descents (h : Nat) (uses : List CursorUse) : Nat := uses.countP (·.descendsOn h)

theorem descents_append (h : Nat) (before after : List CursorUse) :
    descents h (before ++ after) = descents h before + descents h after :=
  List.countP_append

theorem descents_descend (h : Nat) (position : SourcePosition) :
    descents h [⟨h, .descend position⟩] = 1 := by
  simp [descents, CursorUse.descendsOn]

namespace ScopeTree

/-- What a query finds from a scope. -/
def tell (tree : ScopeTree) (id : ScopeId) : CursorQuery → CursorFinding
  | .scope => .scope id
  | .innermostType => .innermostType (tree.innermostType? id)
  | .method name => .name (tree.resolveMethod id name)
  | .identifier name => .name (tree.resolveIdentifier id name)
  | .type name => .name (tree.resolveType id name)

/-- The answer to a call on a cursor, and the cursor afterwards. -/
def respond (tree : ScopeTree) (cursor : ScopeCursor) : CursorCall → CursorAnswer × ScopeCursor
  | .descend position => (cursor.advance tree position).map .descended id
  | .clone => (.placed cursor, cursor)
  | .place id => (.placed (.onScope id), cursor)
  | .ask query => (.told (tree.tell cursor.scope query), cursor)

/-- Makes one call. Gives the answer, none if no cursor has the number, and the cursors that are
held afterwards, with new ones at the end. -/
def serve (tree : ScopeTree) (held : List ScopeCursor) (u : CursorUse) :
    Option CursorAnswer × List ScopeCursor :=
  match held[u.number]? with
  | none => (none, held)
  | some cursor =>
    let (answer, after) := tree.respond cursor u.call
    (some answer, held.set u.number after ++ answer.brings)

/-- The cursors that are held after calls in a row. -/
def heldAfter (tree : ScopeTree) (held : List ScopeCursor) (uses : List CursorUse) :
    List ScopeCursor :=
  uses.foldl (fun held u => (tree.serve held u).2) held

/-- The answers to calls in a row. -/
def answers (tree : ScopeTree) : List ScopeCursor → List CursorUse → List (Option CursorAnswer)
  | _, [] => []
  | held, u :: rest => (tree.serve held u).1 :: tree.answers (tree.serve held u).2 rest

/-- The outcome that call number `i` of `descend`, counted from 0, has on a cursor that was put on
the scope `id`: a cursor on child number `i`, or an error that names the scope and counts its
children. An unknown scope has no name and no children. -/
def handedOut (tree : ScopeTree) (id : ScopeId) (i : Nat) (position : SourcePosition) :
    Except ResolveError ScopeCursor :=
  match tree.get? id with
  | none => .error (.scopeMismatch position "" 0)
  | some scope =>
    match scope.children[i]? with
    | some child => .ok ⟨child, 0⟩
    | none => .error (.scopeMismatch position scope.name scope.children.length)

/-- Where a cursor stands that was put on the scope `id` and has had `n` calls of `descend`: calls
past the last child do not count. -/
def cursorAfter (tree : ScopeTree) (id : ScopeId) (n : Nat) : ScopeCursor :=
  ⟨id, min n (tree.children id).length⟩

/-- The cursor numbered `h` serves the scope `id`, whatever calls are made on it and on others
before and after. -/
structure HandsOut (tree : ScopeTree) (held : List ScopeCursor) (h : Nat) (id : ScopeId) :
    Prop where
  /-- A call of `descend` gets what is due by the number of such calls on this cursor before. -/
  descend : ∀ before position after,
    (tree.answers held (before ++ ⟨h, .descend position⟩ :: after))[before.length]? =
      some (some (.descended (tree.handedOut id (descents h before) position)))
  /-- It is the call that a walk makes. -/
  walk : ∀ before position, ∃ cursor after, (tree.heldAfter held before)[h]? = some cursor ∧
    (tree.heldAfter held (before ++ [⟨h, .descend position⟩]))[h]? = some after ∧
    cursor.descend tree position =
      (tree.handedOut id (descents h before) position).map (·, after)
  /-- Each query is answered from the scope. -/
  ask : ∀ before query after,
    (tree.answers held (before ++ ⟨h, .ask query⟩ :: after))[before.length]? =
      some (some (.told (tree.tell id query)))
  /-- A call that fails leaves all cursors as they are, and without it the other calls are answered
  the same. -/
  failure : ∀ before position e, tree.handedOut id (descents h before) position = .error e →
    tree.heldAfter held (before ++ [⟨h, .descend position⟩]) = tree.heldAfter held before ∧
      ∀ after, (tree.answers held (before ++ ⟨h, .descend position⟩ :: after)).eraseIdx
        before.length = tree.answers held (before ++ after)

variable {tree : ScopeTree} {held : List ScopeCursor} {cursor : ScopeCursor} {h n : Nat}
  {id : ScopeId} {u : CursorUse}

/-! ## One call -/

theorem cursorAfter_zero (tree : ScopeTree) (id : ScopeId) :
    tree.cursorAfter id 0 = .onScope id := by
  rw [cursorAfter, Nat.zero_min]
  rfl

/-- One more call on a cursor that has had `n`. -/
theorem advance_cursorAfter (tree : ScopeTree) (id : ScopeId) (n : Nat)
    (position : SourcePosition) :
    (tree.cursorAfter id n).advance tree position =
      (tree.handedOut id n position, tree.cursorAfter id (n + 1)) := by
  rw [ScopeCursor.advance, handedOut]
  simp only [cursorAfter]
  cases hget : tree.get? id with
  | none => simp [children, name, hget]
  | some scope =>
    have hchildren : tree.children id = scope.children := by simp [children, hget]
    have hname : tree.name id = scope.name := by simp [name, hget]
    simp only [hchildren, hname]
    rcases Nat.lt_or_ge n scope.children.length with hlt | hge
    · -- there is a child left, so the cursor has taken as many as it was called for
      rw [Nat.min_eq_left (Nat.le_of_lt hlt), Nat.min_eq_left hlt, List.getElem?_eq_getElem hlt]
      rfl
    · rw [Nat.min_eq_right hge, Nat.min_eq_right (Nat.le_succ_of_le hge),
        List.getElem?_eq_none hge, List.getElem?_eq_none (Nat.le_refl _)]

theorem serve_of_getElem? (hheld : held[u.number]? = some cursor) :
    tree.serve held u = (some (tree.respond cursor u.call).1,
      held.set u.number (tree.respond cursor u.call).2 ++
        (tree.respond cursor u.call).1.brings) := by
  rw [serve, hheld]

/-- A call does not touch the other cursors. -/
theorem getElem?_serve_of_ne (hheld : held[h]? = some cursor) (hne : u.number ≠ h) :
    (tree.serve held u).2[h]? = some cursor := by
  cases hcalled : held[u.number]? with
  | none => rwa [serve, hcalled]
  | some called =>
    obtain ⟨hlt, -⟩ := List.getElem?_eq_some_iff.mp hheld
    rw [serve_of_getElem? hcalled, List.getElem?_append_left (by simpa using hlt),
      List.getElem?_set_ne hne, hheld]

theorem getElem?_serve_self (hheld : held[u.number]? = some cursor) :
    (tree.serve held u).2[u.number]? = some (tree.respond cursor u.call).2 := by
  obtain ⟨hlt, -⟩ := List.getElem?_eq_some_iff.mp hheld
  rw [serve_of_getElem? hheld, List.getElem?_append_left (by simpa using hlt),
    List.getElem?_set_self hlt]

/-- A call counts on a cursor if it is a call of `descend` on it. -/
theorem getElem?_serve (hheld : held[h]? = some (tree.cursorAfter id n)) (u : CursorUse) :
    (tree.serve held u).2[h]? = some (tree.cursorAfter id (n + descents h [u])) := by
  obtain ⟨number, call⟩ := u
  by_cases hnumber : number = h
  · subst hnumber
    rw [getElem?_serve_self hheld]
    cases call with
    | descend position =>
      rw [descents_descend, respond, advance_cursorAfter]
      rfl
    | clone => rfl
    | place id => rfl
    | ask query => rfl
  · have hcount : descents h [⟨number, call⟩] = 0 := by
      cases call <;> simp [descents, CursorUse.descendsOn, hnumber]
    rw [getElem?_serve_of_ne hheld hnumber, hcount, Nat.add_zero]

/-! ## Calls in a row -/

theorem heldAfter_append (tree : ScopeTree) (held : List ScopeCursor)
    (before after : List CursorUse) :
    tree.heldAfter held (before ++ after) = tree.heldAfter (tree.heldAfter held before) after :=
  List.foldl_append

theorem answers_append (tree : ScopeTree) (held : List ScopeCursor)
    (before after : List CursorUse) :
    tree.answers held (before ++ after) =
      tree.answers held before ++ tree.answers (tree.heldAfter held before) after := by
  induction before generalizing held with
  | nil => rfl
  | cons u before ih => rw [List.cons_append, answers, answers, ih]; rfl

@[simp] theorem length_answers (tree : ScopeTree) (held : List ScopeCursor)
    (uses : List CursorUse) : (tree.answers held uses).length = uses.length := by
  induction uses generalizing held with
  | nil => rfl
  | cons u uses ih => rw [answers, List.length_cons, ih, List.length_cons]

/-- Each call is answered by the cursors that are held when it is made. -/
theorem getElem?_answers (tree : ScopeTree) (held : List ScopeCursor) (before : List CursorUse)
    (u : CursorUse) (after : List CursorUse) :
    (tree.answers held (before ++ u :: after))[before.length]? =
      some (tree.serve (tree.heldAfter held before) u).1 := by
  rw [answers_append, List.getElem?_append_right (by simp), length_answers, Nat.sub_self]
  rfl

/-- A call that changes no cursor and brings none can be left out. -/
theorem eraseIdx_answers {before : List CursorUse}
    (hsame : (tree.serve (tree.heldAfter held before) u).2 = tree.heldAfter held before)
    (after : List CursorUse) :
    (tree.answers held (before ++ u :: after)).eraseIdx before.length =
      tree.answers held (before ++ after) := by
  rw [answers_append, answers, hsame, List.eraseIdx_append_of_length_le (by simp),
    length_answers, Nat.sub_self, List.eraseIdx_cons_zero, ← answers_append]

/-- Where a cursor stands is a matter of the `descend` calls on it. -/
theorem getElem?_heldAfter (hheld : held[h]? = some (tree.cursorAfter id n))
    (uses : List CursorUse) :
    (tree.heldAfter held uses)[h]? = some (tree.cursorAfter id (n + descents h uses)) := by
  -- the count at the start is left open: the first call moves it on
  induction uses generalizing held n with
  | nil => exact hheld
  | cons u uses ih =>
    rw [← List.singleton_append, descents_append, ← Nat.add_assoc]
    exact ih (getElem?_serve hheld u)

/-- A cursor that was put on a scope, after any calls. -/
theorem getElem?_heldAfter_onScope (hheld : held[h]? = some (.onScope id)) (uses : List CursorUse) :
    (tree.heldAfter held uses)[h]? = some (tree.cursorAfter id (descents h uses)) := by
  rw [← cursorAfter_zero tree] at hheld
  rw [getElem?_heldAfter hheld uses, Nat.zero_add]

/-! ## What a cursor hands out -/

theorem length_children_le_of_handedOut {position : SourcePosition} {e : ResolveError}
    (h : tree.handedOut id n position = .error e) : (tree.children id).length ≤ n := by
  rw [handedOut] at h
  cases hget : tree.get? id with
  | none => simp [children, hget]
  | some scope =>
    rw [hget] at h
    cases hchild : scope.children[n]? with
    | none => simpa [children, hget] using hchild
    | some child => simp [hchild] at h

theorem serve_descend (hheld : held[h]? = some (tree.cursorAfter id n))
    (position : SourcePosition) :
    tree.serve held ⟨h, .descend position⟩ =
      (some (.descended (tree.handedOut id n position)),
        held.set h (tree.cursorAfter id (n + 1)) ++
          (CursorAnswer.descended (tree.handedOut id n position)).brings) := by
  rw [serve_of_getElem? hheld, respond, advance_cursorAfter]
  rfl

/-- A call past the last child leaves every cursor as it is. -/
theorem serve_descend_of_error (hheld : held[h]? = some (tree.cursorAfter id n))
    {position : SourcePosition} {e : ResolveError}
    (herror : tree.handedOut id n position = .error e) :
    (tree.serve held ⟨h, .descend position⟩).2 = held := by
  have hle := length_children_le_of_handedOut herror
  obtain ⟨hlt, hget⟩ := List.getElem?_eq_some_iff.mp hheld
  have hstay : tree.cursorAfter id (n + 1) = tree.cursorAfter id n := by
    rw [cursorAfter, cursorAfter, Nat.min_eq_right hle, Nat.min_eq_right (Nat.le_succ_of_le hle)]
  rw [serve_descend hheld, herror, hstay, ← hget, List.set_getElem_self]
  exact List.append_nil _

theorem handsOut_of_onScope (hheld : held[h]? = some (.onScope id)) :
    tree.HandsOut held h id where
  descend := fun before position after => by
    rw [getElem?_answers, serve_descend (getElem?_heldAfter_onScope hheld before)]
  walk := fun before position => by
    refine ⟨_, _, getElem?_heldAfter_onScope hheld before,
      getElem?_heldAfter_onScope hheld (before ++ [⟨h, .descend position⟩]), ?_⟩
    rw [ScopeCursor.descend_eq_advance, advance_cursorAfter, descents_append, descents_descend]
  ask := fun before query after => by
    rw [getElem?_answers, serve_of_getElem? (getElem?_heldAfter_onScope hheld before)]
    rfl
  failure := fun before position e herror => by
    have hsame := serve_descend_of_error (getElem?_heldAfter_onScope hheld before) herror
    exact ⟨by rw [heldAfter_append]; exact hsame, eraseIdx_answers hsame⟩

theorem eq_onScope_of_handedOut {position : SourcePosition} {child : ScopeCursor}
    (h : tree.handedOut id n position = .ok child) : child = .onScope child.scope := by
  rw [handedOut] at h
  split at h
  · cases h
  · split at h
    · obtain rfl := Except.ok.inj h
      rfl
    · cases h

theorem HandsOut.descend_of_due (hserves : tree.HandsOut held h id) {before after : List CursorUse}
    {position : SourcePosition} {outcome : Except ResolveError ScopeCursor}
    (hdue : tree.handedOut id (descents h before) position = outcome) :
    (tree.answers held (before ++ ⟨h, .descend position⟩ :: after))[before.length]? =
      some (some (.descended outcome)) := by
  rw [hserves.descend, hdue]

/-- **A cursor hands out each child once, in order, and then fails without moving.** This holds of
every cursor that is put on a scope, and again of the cursors that it hands out: they come last
among the held ones, on the child that is due and with none of its children taken. -/
theorem cursor_handsOutChildren (tree : ScopeTree) (id : ScopeId) (held : List ScopeCursor)
    (h : Nat) (hheld : held[h]? = some (.onScope id)) :
    tree.HandsOut held h id ∧
    ∀ before position child, tree.handedOut id (descents h before) position = .ok child →
      let number := (tree.heldAfter held before).length
      let now := tree.heldAfter held (before ++ [⟨h, .descend position⟩])
      now[number]? = some child ∧ child = .onScope child.scope ∧
        tree.HandsOut now number child.scope := by
  refine ⟨handsOut_of_onScope hheld, fun before position child hchild => ?_⟩
  intro number now
  have hstands : (tree.heldAfter held before)[h]? =
      some (tree.cursorAfter id (descents h before)) := getElem?_heldAfter_onScope hheld before
  have hserve := serve_descend hstands position
  rw [hchild] at hserve
  have hnow : now = (tree.serve (tree.heldAfter held before) ⟨h, .descend position⟩).2 :=
    heldAfter_append tree held before _
  have hlast : now[number]? = some child := by
    rw [hnow, hserve, List.getElem?_append_right (by simp [number]), List.length_set, Nat.sub_self]
    rfl
  have hfresh := eq_onScope_of_handedOut hchild
  exact ⟨hlast, hfresh, handsOut_of_onScope (hlast.trans (congrArg some hfresh))⟩

/-- A compilation unit of two blocks, with another block in the first. -/
def nestedBlockScopes : ScopeTree :=
  .build
    [.enter .compilationUnit "unit", .enter .block "first", .declareVariable "a",
      .enter .block "inner", .exit, .exit, .enter .block "second"]

/-- Calls on a cursor in the compilation unit, on a clone of it, on the cursor that it hands out
first and on one that stands on an unknown scope. -/
def nestedBlockUses (position : SourcePosition) : List CursorUse :=
  [⟨0, .descend position⟩, ⟨2, .ask (.identifier "a")⟩, ⟨0, .clone⟩, ⟨3, .descend position⟩,
    ⟨2, .descend position⟩, ⟨1, .descend position⟩]

theorem handsOutChildren_nestedBlocks :
    let held : List ScopeCursor := [.onScope 1, .onScope 9]
    let position : SourcePosition := ⟨⟨0⟩, ⟨7, 0⟩⟩
    let uses := nestedBlockUses position
    let answer (held : List ScopeCursor) (before : List CursorUse) (h : Nat) :=
      (nestedBlockScopes.answers held (before ++ [⟨h, .descend position⟩]))[before.length]?
    answer held uses 0 = some (some (.descended (.ok (.onScope 4)))) ∧
      answer held (uses ++ [⟨0, .descend position⟩]) 0 =
        some (some (.descended (.error (.scopeMismatch position "unit" 2)))) ∧
      answer held uses 1 = some (some (.descended (.error (.scopeMismatch position "" 0)))) ∧
      answer (nestedBlockScopes.heldAfter held [⟨0, .descend position⟩]) [] 2 =
        some (some (.descended (.ok (.onScope 3)))) := by
  intro held position uses answer
  obtain ⟨hunit, hinside⟩ := cursor_handsOutChildren nestedBlockScopes 1 held 0 rfl
  obtain ⟨hunknown, -⟩ := cursor_handsOutChildren nestedBlockScopes 9 held 1 rfl
  obtain ⟨-, -, hfirst⟩ : _ ∧ _ ∧ nestedBlockScopes.HandsOut
      (nestedBlockScopes.heldAfter held [⟨0, .descend position⟩]) 2 2 :=
    hinside [] position (.onScope 2) rfl
  have hsecond : nestedBlockScopes.handedOut 1 (descents 0 uses) position =
      .ok (.onScope 4) := rfl
  have hend : nestedBlockScopes.handedOut 1 (descents 0 (uses ++ [⟨0, .descend position⟩]))
      position = .error (.scopeMismatch position "unit" 2) := rfl
  have hforeign : nestedBlockScopes.handedOut 9 (descents 1 uses) position =
      .error (.scopeMismatch position "" 0) := rfl
  have hinner : nestedBlockScopes.handedOut 2 (descents 2 []) position = .ok (.onScope 3) := rfl
  exact ⟨hunit.descend_of_due hsecond, hunit.descend_of_due hend,
    hunknown.descend_of_due hforeign, hfirst.descend_of_due hinner⟩

end ScopeTree

end NameResolution
