import NameResolution.Denotation

/-!
# How a node can fail

What a node denotes fails only by a fault of the program, which is reported at the node
(`Context.faultsAt_denotes`). That the trees disagree is for the walk to find: when it opens
contours and when it records.
-/

namespace NameResolution

/-- An outcome that fails, if it does, by a fault of the program at this position. -/
def FaultsAt {α : Type} (position : SourcePosition) (outcome : Except ResolveError α) : Prop :=
  ∀ e, outcome = .error e → e.isInternal = false ∧ e.position = position

namespace FaultsAt

variable {α β : Type} {position : SourcePosition} {outcome : Except ResolveError α}

theorem ok (a : α) : FaultsAt position (.ok a) := nofun

theorem outerInstance (name : String) (access : MemberAccess) :
    FaultsAt position (.error (.outerInstance position name access) : Except ResolveError α) := by
  rintro _ ⟨⟩
  exact ⟨rfl, rfl⟩

theorem map (h : FaultsAt position outcome) (f : α → β) : FaultsAt position (outcome.map f) := by
  intro e hmap
  cases outcome with
  | ok a => cases hmap
  | error e' => exact h e (congrArg Except.error (Except.error.inj hmap))

theorem bind {f : α → Except ResolveError β} (h : FaultsAt position outcome)
    (hf : ∀ a, FaultsAt position (f a)) : FaultsAt position (outcome >>= f) := by
  intro e hbind
  cases outcome with
  | ok a => exact hf a e hbind
  | error e' => exact h e (congrArg Except.error (Except.error.inj hbind))

theorem check (policy : Policy) (name : String) :
    FaultsAt position (policy.check position name) := by
  unfold Policy.check
  split
  · exact .ok ()
  · rintro _ ⟨⟩
    exact ⟨rfl, rfl⟩

end FaultsAt

namespace Context

variable (ctx : Context) (scope : ScopeId)

theorem faultsAt_identifier (position : SourcePosition) (text : String) :
    FaultsAt position (ctx.identifier scope position text) := by
  unfold identifier
  split
  · exact .ok none
  · split
    · exact .outerInstance text .field
    · exact .ok _

theorem faultsAt_calledMethod (position : SourcePosition) (name : String) :
    FaultsAt position (ctx.calledMethod scope position name) := by
  unfold calledMethod
  split
  · exact .ok none
  · split
    · exact .outerInstance name .method
    · exact .ok _

theorem faultsAt_checkReceiver (position : SourcePosition) (name : String)
    (receiver : Option Node) :
    FaultsAt position (ctx.checkReceiver scope position name receiver) := by
  unfold checkReceiver
  split
  · split
    · exact .outerInstance _ .method
    · exact .ok ()
  · exact .ok ()

theorem faultsAt_checkType (position : SourcePosition) (segments : List String) :
    FaultsAt position (ctx.checkType scope position segments) := by
  unfold checkType
  split
  · exact .ok ()
  · split <;> exact .check ctx.policy _
  · exact .check ctx.policy _

theorem faultsAt_namedAccess (node : Node) (first : String) :
    FaultsAt (ctx.position node) (ctx.namedAccess scope node first) := by
  unfold namedAccess
  dsimp only
  split
  · exact ctx.faultsAt_identifier scope _ first
  · split
    · exact .ok none
    · split
      · exact .ok none
      · split
        · exact (FaultsAt.check ctx.policy _).bind fun _ => ctx.faultsAt_identifier scope _ _
        · exact ctx.faultsAt_identifier scope _ _

theorem faultsAt_outerAccess (node : Node) (outer : String) :
    FaultsAt (ctx.position node) (ctx.outerAccess scope node outer) := by
  unfold outerAccess
  dsimp only
  split
  · exact .ok none
  · exact .outerInstance _ .field
  · exact ctx.faultsAt_identifier scope _ _

theorem faultsAt_fieldAccess (node : Node) :
    FaultsAt (ctx.position node) (ctx.fieldAccess scope node) := by
  unfold fieldAccess
  split
  · exact ctx.faultsAt_namedAccess scope node _
  · exact ctx.faultsAt_namedAccess scope node _
  · exact ctx.faultsAt_outerAccess scope node _
  · exact .ok none

/-- **A node fails by a fault of the program, and at its own position.** -/
theorem faultsAt_denotes (node : Node) :
    FaultsAt (ctx.position node) (ctx.denotes scope node) := by
  unfold denotes
  dsimp only
  split
  · exact ctx.faultsAt_calledMethod scope _ _
  · exact (ctx.faultsAt_checkReceiver scope _ _ _).map _
  · exact ctx.faultsAt_identifier scope _ _
  · exact (ctx.faultsAt_checkType scope _ _).map _
  · exact ctx.faultsAt_fieldAccess scope node
  · exact .ok none

end Context

end NameResolution
