import NameResolution.Proofs.ProgramFaults
import NameResolution.Proofs.WalkStep
import NameResolution.Scope.Builder
import NameResolution.Syntax.Build

/-!
# The scopes that a syntax tree demands

The contours that a walk opens form a forest, the demand of the syntax tree (`Node.demand`). A
scope covers a forest when it has a child for every tree of the forest, which covers the contours
inside that tree (`ScopeTree.Covers`). `Context.walk_tracks` follows the demand through a walk:
where a walk ends, the scopes cover what it demanded; where it fails for want of a scope, more was
demanded of that scope than it has.
-/

namespace NameResolution

/-- A contour and the contours directly inside it, in document order. -/
inductive Contour where
  | mk (inner : List Contour)

namespace Contour

def inner : Contour → List Contour
  | ⟨contours⟩ => contours

/-- As many contours inside each other as `depth` says, around a forest. -/
def wrap : Nat → List Contour → List Contour
  | 0, forest => forest
  | depth + 1, forest => [⟨wrap depth forest⟩]

end Contour

namespace Node

mutual

/-- The forest of the contours that a walk of the tree opens. -/
def demand : Node → List Contour
  | ⟨.fieldAccess _, _, []⟩ => []
  | ⟨.fieldAccess _, _, q :: _⟩ => if q.chainEnd.kind.startsPath then [] else q.demand
  | ⟨kind, _, children⟩ => Contour.wrap kind.contourDepth (demandAll children)
termination_by structural node => node

/-- The demands of nodes one after the other. -/
def demandAll : List Node → List Contour
  | [] => []
  | node :: rest => node.demand ++ demandAll rest
termination_by structural nodes => nodes

end

theorem demand_of_isFieldAccess_eq_false {node : Node} (h : node.kind.isFieldAccess = false) :
    node.demand = Contour.wrap node.kind.contourDepth (demandAll node.children) := by
  obtain ⟨kind, start, children⟩ := node
  cases kind <;> first | rfl | cases h

end Node

namespace ScopeTree

/-- A scope has at least as many children as a forest has trees, and each of these children covers
the contours inside its tree. -/
inductive Covers (scopes : ScopeTree) : ScopeId → List Contour → Prop where
  | intro {scope : ScopeId} {forest : List Contour}
      (hlength : forest.length ≤ (scopes.children scope).length)
      (hinner : ∀ (i : Nat) (contour : Contour) (child : ScopeId), forest[i]? = some contour →
        (scopes.children scope)[i]? = some child → Covers scopes child contour.inner) :
      Covers scopes scope forest

/-- Where a forest is demanded of a scope, the contours inside each of its trees are demanded of
the child of the scope with the same number. -/
inductive Demands (scopes : ScopeTree) :
    ScopeId → List Contour → ScopeId → List Contour → Prop where
  | here {scope : ScopeId} {forest : List Contour} : Demands scopes scope forest scope forest
  | inside {scope child target : ScopeId} {forest trees : List Contour} {i : Nat}
      {contour : Contour} (hcontour : forest[i]? = some contour)
      (hchild : (scopes.children scope)[i]? = some child)
      (hinner : Demands scopes child contour.inner target trees) :
      Demands scopes scope forest target trees

variable {scopes : ScopeTree} {scope child : ScopeId} {taken : Nat} {forest later : List Contour}
  {name : String} {count : Nat}

/-! ## Covering from a child on -/

/-- The children of a scope after the first `taken` cover a forest. -/
def CoversFrom (scopes : ScopeTree) (scope : ScopeId) (taken : Nat) (forest : List Contour) :
    Prop :=
  ∀ (i : Nat) (contour : Contour), forest[i]? = some contour →
    ∃ child, (scopes.children scope)[taken + i]? = some child ∧ scopes.Covers child contour.inner

theorem covers_iff_coversFrom : scopes.Covers scope forest ↔ scopes.CoversFrom scope 0 forest := by
  constructor
  · rintro ⟨hlength, hinner⟩ i contour hcontour
    obtain ⟨hi, -⟩ := List.getElem?_eq_some_iff.mp hcontour
    have hchild := List.getElem?_eq_getElem (Nat.lt_of_lt_of_le hi hlength)
    rw [Nat.zero_add]
    exact ⟨_, hchild, hinner i contour _ hcontour hchild⟩
  · intro h
    refine .intro ?_ fun i contour child hcontour hchild => ?_
    · refine Nat.le_of_not_lt fun hlt => ?_
      obtain ⟨child, hchild, -⟩ := h _ _ (List.getElem?_eq_getElem hlt)
      rw [Nat.zero_add, List.getElem?_eq_none (Nat.le_refl _)] at hchild
      cases hchild
    · obtain ⟨child', hchild', hcovers⟩ := h i contour hcontour
      rw [Nat.zero_add, hchild] at hchild'
      exact Option.some.inj hchild' ▸ hcovers

theorem CoversFrom.append (h : scopes.CoversFrom scope taken forest)
    (hlater : scopes.CoversFrom scope (taken + forest.length) later) :
    scopes.CoversFrom scope taken (forest ++ later) := by
  intro i contour hcontour
  by_cases hi : i < forest.length
  · rw [List.getElem?_append_left hi] at hcontour
    exact h i contour hcontour
  · have hi := Nat.le_of_not_lt hi
    rw [List.getElem?_append_right hi] at hcontour
    obtain ⟨child, hchild, hcovers⟩ := hlater _ contour hcontour
    rw [Nat.add_assoc, Nat.add_sub_cancel' hi] at hchild
    exact ⟨child, hchild, hcovers⟩

theorem coversFrom_singleton {contour : Contour}
    (hchild : (scopes.children scope)[taken]? = some child)
    (hcovers : scopes.Covers child contour.inner) :
    scopes.CoversFrom scope taken [contour] := by
  intro i other hother
  obtain ⟨hi, rfl⟩ := List.getElem?_eq_some_iff.mp hother
  obtain rfl : i = 0 := by simpa using hi
  exact ⟨child, hchild, hcovers⟩

/-- Contours that open are covered when the innermost scope covers what is inside. -/
theorem coversFrom_wrap {more : Nat} {innermost : ScopeId}
    (hopen : scopes.openContours (more + 1) scope taken = .ok innermost)
    (hcovers : scopes.Covers innermost forest) :
    scopes.CoversFrom scope taken (Contour.wrap (more + 1) forest) := by
  induction more generalizing scope taken with
  | zero =>
    obtain ⟨child, hchild, hinner⟩ := openContours_succ_eq_ok_iff.mp hopen
    obtain rfl := Except.ok.inj hinner
    exact coversFrom_singleton hchild hcovers
  | succ more ih =>
    obtain ⟨child, hchild, hinner⟩ := openContours_succ_eq_ok_iff.mp hopen
    exact coversFrom_singleton hchild (covers_iff_coversFrom.mpr (ih hinner))

/-! ## Lacking children -/

/-- Of a scope called `name` with `count` children more than these are demanded. -/
def Lacks (scopes : ScopeTree) (scope : ScopeId) (forest : List Contour) (name : String)
    (count : Nat) : Prop :=
  ∃ target trees, scopes.Demands scope forest target trees ∧ scopes.name target = name ∧
    (scopes.children target).length = count ∧ count < trees.length

/-- The same when the children of the scope after the first `taken` take the trees. -/
def LacksFrom (scopes : ScopeTree) (scope : ScopeId) (taken : Nat) (forest : List Contour)
    (name : String) (count : Nat) : Prop :=
  (scopes.name scope = name ∧ (scopes.children scope).length = count ∧
      count < taken + forest.length) ∨
    ∃ i contour child, forest[i]? = some contour ∧
      (scopes.children scope)[taken + i]? = some child ∧
        scopes.Lacks child contour.inner name count

theorem LacksFrom.lacks (h : scopes.LacksFrom scope 0 forest name count) :
    scopes.Lacks scope forest name count := by
  rcases h with ⟨hname, hcount, hlt⟩ |
    ⟨i, contour, child, hcontour, hchild, target, trees, hdemands, hrest⟩
  · exact ⟨scope, forest, .here, hname, hcount, by rwa [Nat.zero_add] at hlt⟩
  · rw [Nat.zero_add] at hchild
    exact ⟨target, trees, .inside hcontour hchild hdemands, hrest⟩

theorem LacksFrom.append_left (h : scopes.LacksFrom scope taken forest name count)
    (later : List Contour) : scopes.LacksFrom scope taken (forest ++ later) name count := by
  rcases h with ⟨hname, hcount, hlt⟩ | ⟨i, contour, child, hcontour, hrest⟩
  · refine .inl ⟨hname, hcount, ?_⟩
    rw [List.length_append]
    omega
  · obtain ⟨hi, -⟩ := List.getElem?_eq_some_iff.mp hcontour
    exact .inr ⟨i, contour, child, by rwa [List.getElem?_append_left hi], hrest⟩

theorem LacksFrom.append_right
    (h : scopes.LacksFrom scope (taken + forest.length) later name count) :
    scopes.LacksFrom scope taken (forest ++ later) name count := by
  rcases h with ⟨hname, hcount, hlt⟩ | ⟨i, contour, child, hcontour, hchild, hlacks⟩
  · refine .inl ⟨hname, hcount, ?_⟩
    rwa [List.length_append, ← Nat.add_assoc]
  · refine .inr ⟨forest.length + i, contour, child, ?_, ?_, hlacks⟩
    · rwa [List.getElem?_append_right (Nat.le_add_right _ _), Nat.add_sub_cancel_left]
    · rwa [← Nat.add_assoc]

theorem lacksFrom_singleton {contour : Contour}
    (hchild : (scopes.children scope)[taken]? = some child)
    (hlacks : scopes.Lacks child contour.inner name count) :
    scopes.LacksFrom scope taken [contour] name count :=
  .inr ⟨0, contour, child, rfl, hchild, hlacks⟩

/-- Contours that do not open lack a child of a scope on their way. -/
theorem lacksFrom_of_openContours_eq_error {more : Nat} {lacking : ScopeId}
    (h : scopes.openContours (more + 1) scope taken = .error lacking) (forest : List Contour) :
    scopes.LacksFrom scope taken (Contour.wrap (more + 1) forest) (scopes.name lacking)
      (scopes.children lacking).length := by
  induction more generalizing scope taken with
  | zero =>
    rcases openContours_succ_eq_error_iff.mp h with ⟨hchild, rfl⟩ | ⟨child, -, hinner⟩
    · exact .inl ⟨rfl, rfl, Nat.lt_succ_of_le (List.getElem?_eq_none_iff.mp hchild)⟩
    · cases hinner
  | succ more ih =>
    rcases openContours_succ_eq_error_iff.mp h with ⟨hchild, rfl⟩ | ⟨child, hchild, hinner⟩
    · exact .inl ⟨rfl, rfl, Nat.lt_succ_of_le (List.getElem?_eq_none_iff.mp hchild)⟩
    · exact lacksFrom_singleton hchild (ih hinner).lacks

/-- What is lacking inside contours that open is lacking outside. -/
theorem lacksFrom_wrap {more : Nat} {innermost : ScopeId}
    (hopen : scopes.openContours (more + 1) scope taken = .ok innermost)
    (hlacks : scopes.Lacks innermost forest name count) :
    scopes.LacksFrom scope taken (Contour.wrap (more + 1) forest) name count := by
  induction more generalizing scope taken with
  | zero =>
    obtain ⟨child, hchild, hinner⟩ := openContours_succ_eq_ok_iff.mp hopen
    obtain rfl := Except.ok.inj hinner
    exact lacksFrom_singleton hchild hlacks
  | succ more ih =>
    obtain ⟨child, hchild, hinner⟩ := openContours_succ_eq_ok_iff.mp hopen
    exact lacksFrom_singleton hchild (ih hinner).lacks

/-- A scope that covers a forest lacks nothing of it. -/
theorem Covers.not_lacks (h : scopes.Covers scope forest) :
    ¬ scopes.Lacks scope forest name count := by
  rintro ⟨target, trees, hdemands, -, hcount, hlt⟩
  -- covering passes down the same children that the demand passes down
  induction hdemands with
  | here =>
    obtain ⟨hlength, -⟩ := h
    omega
  | inside hcontour hchild _ ih =>
    obtain ⟨-, hinner⟩ := h
    exact ih (hinner _ _ _ hcontour hchild) hcount hlt

end ScopeTree

/-! ## Following the demand through a walk -/

/-- What the outcome of a walk says about the scopes, when it met the contours of `forest` after
`taken` children of `scope` were taken. -/
def ScopeTree.Tracks (scopes : ScopeTree) (scope : ScopeId) (taken : Nat) (forest : List Contour) :
    Except ResolveError WalkState → Prop
  | .ok state =>
    state.cursor = ⟨scope, taken + forest.length⟩ ∧ scopes.CoversFrom scope taken forest
  | .error (.scopeMismatch _ name count) => scopes.LacksFrom scope taken forest name count
  | .error _ => True

/-- The outcome of something other than opening contours. -/
def NoMismatch {α : Type} (outcome : Except ResolveError α) : Prop :=
  ∀ position name count, outcome ≠ .error (.scopeMismatch position name count)

namespace NoMismatch

variable {α β : Type}

theorem ok (a : α) : NoMismatch (.ok a) := nofun

theorem map {outcome : Except ResolveError α} (h : NoMismatch outcome) (f : α → β) :
    NoMismatch (outcome.map f) := by
  intro position name count hmap
  cases outcome with
  | ok a => cases hmap
  | error e =>
    obtain rfl := Except.error.inj hmap
    exact h position name count rfl

theorem bind {outcome : Except ResolveError α} {f : α → Except ResolveError β}
    (h : NoMismatch outcome) (hf : ∀ a, NoMismatch (f a)) : NoMismatch (outcome >>= f) := by
  intro position name count hbind
  cases outcome with
  | ok a => exact hf a position name count hbind
  | error e =>
    obtain rfl := Except.error.inj hbind
    exact h position name count rfl

end NoMismatch

namespace Context

/-- No node fails for want of a scope but by opening contours. -/
theorem noMismatch_denotes (ctx : Context) (scope : ScopeId) (node : Node) :
    NoMismatch (ctx.denotes scope node) := by
  intro position name count h
  exact absurd (ctx.faultsAt_denotes scope node _ h).1 nofun

theorem noMismatch_record {kind : NameType} (table : NameTable kind) (position : SourcePosition)
    (name : QualifiedName kind) : NoMismatch (table.record position name) := by
  intro p n c h
  rw [NameTable.record] at h
  cases hfind : table.find? position <;> rw [hfind] at h <;> cases h

theorem noMismatch_add (found : Resolution) (entry : Option (SourcePosition × Occurrence)) :
    NoMismatch (found.add entry) := by
  cases entry with
  | none => exact NoMismatch.ok found
  | some entry =>
    obtain ⟨position, occurrence⟩ := entry
    cases occurrence with
    | method name => exact (noMismatch_record found.methods position name).map _
    | identifier name => exact (noMismatch_record found.identifiers position name).map _

end Context

section Tracks

variable {scopes : ScopeTree} {scope : ScopeId} {taken : Nat} {forest later : List Contour}

/-- One walk after the other meets the contours of both. -/
theorem ScopeTree.Tracks.bind {outcome : Except ResolveError WalkState}
    {next : WalkState → Except ResolveError WalkState}
    (h : scopes.Tracks scope taken forest outcome)
    (hnext : ∀ found, scopes.Tracks scope (taken + forest.length) later
      (next ⟨⟨scope, taken + forest.length⟩, found⟩)) :
    scopes.Tracks scope taken (forest ++ later) (outcome >>= next) := by
  match outcome with
  | .ok ⟨cursor, found⟩ =>
    obtain ⟨rfl, hcovers⟩ := h
    show scopes.Tracks scope taken (forest ++ later) (next _)
    have hlater := hnext found
    match hstate : next ⟨⟨scope, taken + forest.length⟩, found⟩ with
    | .ok state =>
      rw [hstate] at hlater
      refine ⟨?_, hcovers.append hlater.2⟩
      rw [hlater.1, List.length_append, Nat.add_assoc]
    | .error (.scopeMismatch position name count) =>
      rw [hstate] at hlater
      exact ScopeTree.LacksFrom.append_right hlater
    | .error (.outerInstance ..) => trivial
    | .error (.forbiddenName ..) => trivial
    | .error (.repeatedPosition ..) => trivial
  | .error (.scopeMismatch position name count) => exact ScopeTree.LacksFrom.append_left h later
  | .error (.outerInstance ..) => trivial
  | .error (.forbiddenName ..) => trivial
  | .error (.repeatedPosition ..) => trivial

theorem ScopeTree.tracks_nil {outcome : Except ResolveError Resolution} (h : NoMismatch outcome) :
    scopes.Tracks scope taken [] (WalkState.mk ⟨scope, taken⟩ <$> outcome) := by
  match outcome with
  | .ok found => exact ⟨rfl, nofun⟩
  | .error (.scopeMismatch position name count) => exact absurd rfl (h position name count)
  | .error (.outerInstance ..) => trivial
  | .error (.forbiddenName ..) => trivial
  | .error (.repeatedPosition ..) => trivial

/-- What is met inside contours is met outside inside the contours. -/
theorem ScopeTree.Tracks.wrap {more : Nat} {innermost : ScopeId}
    {outcome : Except ResolveError WalkState}
    (hopen : scopes.openContours (more + 1) scope taken = .ok innermost)
    (h : scopes.Tracks innermost 0 forest outcome) :
    scopes.Tracks scope taken (Contour.wrap (more + 1) forest)
      (outcome >>= fun inside => pure ⟨⟨scope, taken + 1⟩, inside.found⟩) := by
  match outcome with
  | .ok inside => exact ⟨rfl, coversFrom_wrap hopen (covers_iff_coversFrom.mpr h.2)⟩
  | .error (.scopeMismatch position name count) =>
    exact lacksFrom_wrap hopen (ScopeTree.LacksFrom.lacks h)
  | .error (.outerInstance ..) => trivial
  | .error (.forbiddenName ..) => trivial
  | .error (.repeatedPosition ..) => trivial

end Tracks

namespace Context

variable {ctx : Context}

theorem tracks_recordNode (node : Node) (scope : ScopeId) (taken : Nat) (found : Resolution) :
    ctx.scopes.Tracks scope taken [] (ctx.recordNode node ⟨⟨scope, taken⟩, found⟩) := by
  rw [recordNode_eq]
  exact ScopeTree.tracks_nil
    (((ctx.noMismatch_denotes scope node).map _).bind fun entry => noMismatch_add found entry)

theorem walkAll_tracks {nodes : List Node} (scope : ScopeId) (taken : Nat) (found : Resolution)
    (hwalk : ∀ node ∈ nodes, ∀ scope taken found,
      ctx.scopes.Tracks scope taken node.demand (ctx.walk node ⟨⟨scope, taken⟩, found⟩)) :
    ctx.scopes.Tracks scope taken (Node.demandAll nodes)
      (ctx.walkAll nodes ⟨⟨scope, taken⟩, found⟩) := by
  induction nodes generalizing taken found with
  | nil => exact ⟨rfl, nofun⟩
  | cons node rest ih =>
    rw [walkAll_cons]
    refine (hwalk node List.mem_cons_self scope taken found).bind fun found => ?_
    exact ih _ found fun n hn => hwalk n (List.mem_cons_of_mem _ hn)

/-- **A walk keeps track of the demand.** -/
theorem walk_tracks (node : Node) (scope : ScopeId) (taken : Nat) (found : Resolution) :
    ctx.scopes.Tracks scope taken node.demand (ctx.walk node ⟨⟨scope, taken⟩, found⟩) := by
  induction node using Node.walkInduction generalizing scope taken found with
  | empty field start => exact ⟨rfl, nofun⟩
  | path field start q rest hend =>
    rw [walk_of_startsPath hend, Node.demand, if_pos hend]
    exact tracks_recordNode _ scope taken found
  | computed field start q rest hend ih =>
    rw [walk_computed hend, Node.demand, hend, if_neg Bool.false_ne_true]
    exact ih scope taken found
  | inner node hkind ih =>
    rw [Node.demand_of_isFieldAccess_eq_false hkind]
    cases hdepth : node.kind.contourDepth with
    | zero =>
      rw [walk_of_contourDepth_eq_zero hkind hdepth]
      have hnode : ctx.scopes.Tracks scope taken [] (ctx.recordNode node ⟨⟨scope, taken⟩, found⟩) :=
        tracks_recordNode node scope taken found
      exact hnode.bind fun found => walkAll_tracks scope taken found ih
    | succ more =>
      rw [walk_of_contourDepth hdepth]
      -- the children are walked in the innermost scope, from its first child on
      cases hopen : ctx.scopes.openContours (more + 1) scope taken with
      | error lacking => exact ScopeTree.lacksFrom_of_openContours_eq_error hopen _
      | ok innermost => exact (walkAll_tracks innermost 0 found ih).wrap hopen

end Context

/-- **A file fails for want of a scope only where its syntax tree demands more scopes than there
are.** The scope that is named has as many children as reported and more contours are demanded
directly inside it. Scopes that cover the demand are enough, and a resolved file shows that they
do. -/
theorem resolveFile_demand (file : FileId) (root : Node) (scopes : ScopeTree) (policy : Policy) :
    (scopes.Covers ScopeTree.root root.demand → ∀ position name count,
      resolveFile file root scopes policy ≠ .error (.scopeMismatch position name count)) ∧
    (∀ r, resolveFile file root scopes policy = .ok r →
      scopes.Covers ScopeTree.root root.demand) ∧
    ∀ position name count,
      resolveFile file root scopes policy = .error (.scopeMismatch position name count) →
        ∃ scope trees, scopes.Demands ScopeTree.root root.demand scope trees ∧
          scopes.name scope = name ∧ (scopes.children scope).length = count ∧
            count < trees.length := by
  have htracks := (⟨file, scopes, policy⟩ : Context).walk_tracks root ScopeTree.root 0 .empty
  have hresolve : resolveFile file root scopes policy =
      ((⟨file, scopes, policy⟩ : Context).walk root ⟨⟨ScopeTree.root, 0⟩, .empty⟩).map
        WalkState.found := rfl
  rw [hresolve]
  generalize (⟨file, scopes, policy⟩ : Context).walk root ⟨⟨ScopeTree.root, 0⟩, .empty⟩ = outcome
    at htracks
  have hlacks (position : SourcePosition) (name : String) (count : Nat)
      (h : outcome.map WalkState.found = .error (.scopeMismatch position name count)) :
      scopes.Lacks ScopeTree.root root.demand name count := by
    match outcome with
    | .ok state => cases h
    | .error e =>
      obtain rfl := Except.error.inj h
      exact ScopeTree.LacksFrom.lacks htracks
  refine ⟨fun hcovers position name count h => hcovers.not_lacks (hlacks position name count h),
    fun r hr => ?_, hlacks⟩
  match outcome with
  | .ok state => exact ScopeTree.covers_iff_coversFrom.mpr htracks.2
  | .error e => cases hr

def twoBlocks : Node := .compilationUnit [.block ⟨1, 0⟩ [], .block ⟨2, 0⟩ []]

def twoBlockScopes : ScopeTree :=
  .build [.enter .compilationUnit "unit", .enter .block "first", .exit, .enter .block "second"]

def oneBlockScopes : ScopeTree := .build [.enter .compilationUnit "unit", .enter .block "first"]

theorem demand_twoBlocks :
    twoBlockScopes.Covers ScopeTree.root twoBlocks.demand ∧
      ∃ scope trees, oneBlockScopes.Demands ScopeTree.root twoBlocks.demand scope trees ∧
        oneBlockScopes.name scope = "unit" ∧ (oneBlockScopes.children scope).length = 1 ∧
          1 < trees.length := by
  have hok : resolveFile ⟨0⟩ twoBlocks twoBlockScopes .default = .ok .empty := rfl
  have hmismatch : resolveFile ⟨0⟩ twoBlocks oneBlockScopes .default =
      .error (.scopeMismatch ⟨⟨0⟩, ⟨2, 0⟩⟩ "unit" 1) := rfl
  obtain ⟨-, hcovers, -⟩ := resolveFile_demand ⟨0⟩ twoBlocks twoBlockScopes .default
  obtain ⟨-, -, hlacks⟩ := resolveFile_demand ⟨0⟩ twoBlocks oneBlockScopes .default
  exact ⟨hcovers _ hok, hlacks _ _ _ hmismatch⟩

end NameResolution
