import NameResolution.Proofs.Findings
import NameResolution.Proofs.PolicyClosure

/-!
# Wider policies

Two resolutions of one file under two policies go in step, visit by visit, until the first policy
refuses a name: nothing but a refusal depends on the policy. So a policy that accepts more changes
nothing about a file unless the narrower one stops it at a name that the wider one accepts
(`SameUnlessRefused`). `SameUnlessRefused.check` says so of a single check,
`Context.sameUnlessRefused_denotes` of a node and `sameUnlessRefused_resolveFile` of a file.
-/

namespace NameResolution

/-- Two outcomes are the same, unless the first is the refusal of a name that only the second of two
policies accepts. -/
def SameUnlessRefused (narrow wide : Policy) {α : Type} (x y : Except ResolveError α) : Prop :=
  x = y ∨ ∃ position name, x = .error (.forbiddenName position name) ∧
    narrow.accepts name = false ∧ wide.accepts name = true

namespace SameUnlessRefused

variable {narrow wide : Policy} {α β : Type} {x y : Except ResolveError α}

theorem refl (x : Except ResolveError α) : SameUnlessRefused narrow wide x x := .inl rfl

theorem bind {f g : α → Except ResolveError β} (h : SameUnlessRefused narrow wide x y)
    (hnext : ∀ a, SameUnlessRefused narrow wide (f a) (g a)) :
    SameUnlessRefused narrow wide (x >>= f) (y >>= g) := by
  rcases h with rfl | ⟨position, name, rfl, hrefused⟩
  · cases x with
    | error e => exact .refl _
    | ok a => exact hnext a
  · exact .inr ⟨position, name, rfl, hrefused⟩

theorem map (h : SameUnlessRefused narrow wide x y) (f : α → β) :
    SameUnlessRefused narrow wide (x.map f) (y.map f) := by
  rcases h with rfl | ⟨position, name, rfl, hrefused⟩
  · exact .refl _
  · exact .inr ⟨position, name, rfl, hrefused⟩

/-- Steps that go in step make runs that go in step. -/
theorem foldlM {f g : α → β → Except ResolveError α} (l : List β) (a : α)
    (hstep : ∀ a b, SameUnlessRefused narrow wide (f a b) (g a b)) :
    SameUnlessRefused narrow wide (l.foldlM f a) (l.foldlM g a) := by
  induction l generalizing a with
  | nil => exact .refl _
  | cons b l ih =>
    rw [List.foldlM_cons, List.foldlM_cons]
    exact (hstep a b).bind fun a => ih a

/-- The one thing that a policy decides. -/
theorem check (hwider : ∀ name, narrow.accepts name = true → wide.accepts name = true)
    (position : SourcePosition) (name : String) :
    SameUnlessRefused narrow wide (narrow.check position name) (wide.check position name) := by
  unfold Policy.check
  cases hnarrow : narrow.accepts name with
  | true =>
    rw [hwider name hnarrow]
    exact .refl _
  | false =>
    cases hwide : wide.accepts name with
    | true => exact .inr ⟨position, name, rfl, hnarrow, hwide⟩
    | false => exact .refl _

end SameUnlessRefused

/-! ## A node -/

namespace Context

variable {file : FileId} {scopes : ScopeTree} {narrow wide : Policy}
  (hwider : ∀ name, narrow.accepts name = true → wide.accepts name = true)
include hwider

theorem sameUnlessRefused_checkType (scope : ScopeId) (position : SourcePosition)
    (segments : List String) :
    SameUnlessRefused narrow wide
      ((⟨file, scopes, narrow⟩ : Context).checkType scope position segments)
      ((⟨file, scopes, wide⟩ : Context).checkType scope position segments) := by
  match segments with
  | [] => exact .refl _
  | [simple] =>
    unfold checkType
    dsimp only
    cases scopes.resolveType scope simple with
    | none => exact .check hwider ..
    | some type => exact .check hwider ..
  | first :: second :: rest => exact .check hwider ..

theorem sameUnlessRefused_namedAccess (scope : ScopeId) (node : Node) (first : String) :
    SameUnlessRefused narrow wide ((⟨file, scopes, narrow⟩ : Context).namedAccess scope node first)
      ((⟨file, scopes, wide⟩ : Context).namedAccess scope node first) := by
  unfold namedAccess
  dsimp only
  cases scopes.resolveIdentifier scope first with
  | some q => exact .refl _
  | none =>
    dsimp only
    split
    · exact .refl _
    · cases node.text with
      | none => exact .refl _
      | some text =>
        dsimp only
        split
        · -- past the check, what the text means is a matter of the scopes alone
          exact .bind (.check hwider ..) fun _ => .refl _
        · exact .refl _

theorem sameUnlessRefused_fieldAccess (scope : ScopeId) (node : Node) :
    SameUnlessRefused narrow wide ((⟨file, scopes, narrow⟩ : Context).fieldAccess scope node)
      ((⟨file, scopes, wide⟩ : Context).fieldAccess scope node) := by
  unfold fieldAccess
  split
  · exact sameUnlessRefused_namedAccess hwider ..
  · exact sameUnlessRefused_namedAccess hwider ..
  · exact .refl _
  · exact .refl _

theorem sameUnlessRefused_denotes (scope : ScopeId) (node : Node) :
    SameUnlessRefused narrow wide ((⟨file, scopes, narrow⟩ : Context).denotes scope node)
      ((⟨file, scopes, wide⟩ : Context).denotes scope node) := by
  unfold denotes
  dsimp only
  split
  · exact .refl _
  · exact .refl _
  · exact .refl _
  · exact (sameUnlessRefused_checkType hwider ..).map _
  · exact sameUnlessRefused_fieldAccess hwider ..
  · exact .refl _

/-! ## A walk -/

theorem sameUnlessRefused_visitIn (node : Node) (scope : ScopeId) (index : Nat) :
    SameUnlessRefused narrow wide ((⟨file, scopes, narrow⟩ : Context).visitIn node scope index)
      ((⟨file, scopes, wide⟩ : Context).visitIn node scope index) := by
  unfold visitIn
  dsimp only
  cases scopes.openContours node.kind.contourDepth scope index with
  | error lacking => exact .refl _
  | ok inner => exact (sameUnlessRefused_denotes hwider scope node).map _

theorem sameUnlessRefused_recordVisit (node : Node) (outer : ScopeId) (taken : Nat)
    (found : Resolution) (p : Place) :
    SameUnlessRefused narrow wide
      ((⟨file, scopes, narrow⟩ : Context).recordVisit node outer taken found p)
      ((⟨file, scopes, wide⟩ : Context).recordVisit node outer taken found p) := by
  have hvisit : SameUnlessRefused narrow wide
      ((⟨file, scopes, narrow⟩ : Context).visitWithin node outer taken p)
      ((⟨file, scopes, wide⟩ : Context).visitWithin node outer taken p) := by
    unfold visitWithin
    dsimp only
    cases node.at? p with
    | none => exact .refl _
    | some inner =>
      cases node.scopeWithin? scopes outer taken p with
      | none => exact .refl _
      | some scope => exact sameUnlessRefused_visitIn hwider ..
  exact hvisit.bind fun found => .refl _

end Context

theorem sameUnlessRefused_resolveFile (file : FileId) (root : Node) (scopes : ScopeTree)
    {narrow wide : Policy}
    (hwider : ∀ name, narrow.accepts name = true → wide.accepts name = true) :
    SameUnlessRefused narrow wide (resolveFile file root scopes narrow)
      (resolveFile file root scopes wide) := by
  rw [resolveFile_eq_foldlM, resolveFile_eq_foldlM]
  exact .foldlM root.visits Resolution.empty fun found p =>
    Context.sameUnlessRefused_recordVisit hwider root ScopeTree.root 0 found p

/-- **A wider policy changes nothing but refusals.** Where the narrower policy refuses no name, the
outcome is the same under both, and so it is where both refuse the name. Policies that accept the
same names cannot be told apart. -/
theorem resolveFile_widerPolicy (file : FileId) (root : Node) (scopes : ScopeTree)
    (narrow wide : Policy) :
    ((∀ name, narrow.accepts name = true → wide.accepts name = true) →
      ((∀ position name,
          resolveFile file root scopes narrow ≠ .error (.forbiddenName position name)) →
        resolveFile file root scopes wide = resolveFile file root scopes narrow) ∧
      ∀ position name,
        resolveFile file root scopes narrow = .error (.forbiddenName position name) →
        wide.accepts name = false →
        resolveFile file root scopes wide = .error (.forbiddenName position name)) ∧
    ((∀ name, narrow.accepts name = wide.accepts name) →
      resolveFile file root scopes narrow = resolveFile file root scopes wide) := by
  refine ⟨fun hwider => ⟨fun hpass => ?_, fun position name hrefused hwide => ?_⟩, fun hsame => ?_⟩
  · rcases sameUnlessRefused_resolveFile file root scopes hwider with
      heq | ⟨position, name, hrefused, -⟩
    · exact heq.symm
    · exact absurd hrefused (hpass position name)
  · rcases sameUnlessRefused_resolveFile file root scopes hwider with
      heq | ⟨position', name', hrefused', -, haccepts⟩
    · exact heq.symm.trans hrefused
    · obtain ⟨-, rfl⟩ : position = position' ∧ name = name' := by
        simpa using hrefused.symm.trans hrefused'
      cases hwide.symm.trans haccepts
  · have hwider (name : String) (haccepts : narrow.accepts name = true) :
        wide.accepts name = true := hsame name ▸ haccepts
    rcases sameUnlessRefused_resolveFile file root scopes hwider with
      heq | ⟨position, name, -, hnarrow, hwide⟩
    · exact heq
    · cases (hnarrow.symm.trans (hsame name)).trans hwide

/-- A field of a class that is named with its package. -/
def pathUse (package : String) : Node :=
  .compilationUnit
    [.fieldOf ⟨1, 0⟩ (.fieldOf ⟨1, 0⟩ (.simpleName ⟨1, 0⟩ package) "Config") "limit"]

def pathUseScopes : ScopeTree := .build [.enter .compilationUnit "unit"]

theorem widerPolicy_pathUse :
    (∃ r, resolveFile ⟨0⟩ (pathUse "a") pathUseScopes (.build [.allowNamespace "a"]) = .ok r ∧
      resolveFile ⟨0⟩ (pathUse "a") pathUseScopes
        (.build [.allowNamespace "a", .allowNamespace "b"]) = .ok r) ∧
    resolveFile ⟨0⟩ (pathUse "c") pathUseScopes
        (.build [.allowNamespace "a", .allowNamespace "b"]) =
      .error (.forbiddenName ⟨⟨0⟩, ⟨1, 0⟩⟩ "c.Config") ∧
    resolveFile ⟨0⟩ (pathUse "b") pathUseScopes
        (.build [.allowNamespace "a", .allowNamespace "b"]) =
      resolveFile ⟨0⟩ (pathUse "b") pathUseScopes
        (.build [.allowNamespace "b", .allowNamespace "a"]) := by
  have hwider (name : String) (h : (Policy.build [.allowNamespace "a"]).accepts name = true) :
      (Policy.build [.allowNamespace "a", .allowNamespace "b"]).accepts name = true :=
    Policy.accepts_of_subset (by rfl) (by decide +kernel) (by decide +kernel) h
  have hsame (name : String) :
      (Policy.build [.allowNamespace "a", .allowNamespace "b"]).accepts name =
        (Policy.build [.allowNamespace "b", .allowNamespace "a"]).accepts name :=
    Bool.eq_iff_iff.mpr
      ⟨Policy.accepts_of_subset (by rfl) (by decide +kernel) (by decide +kernel),
        Policy.accepts_of_subset (by rfl) (by decide +kernel) (by decide +kernel)⟩
  obtain ⟨r, hr⟩ : ∃ r, resolveFile ⟨0⟩ (pathUse "a") pathUseScopes
      (.build [.allowNamespace "a"]) = .ok r := exists_eq_ok_of_isSome (by decide +kernel)
  have hrefused : resolveFile ⟨0⟩ (pathUse "c") pathUseScopes (.build [.allowNamespace "a"]) =
      .error (.forbiddenName ⟨⟨0⟩, ⟨1, 0⟩⟩ "c.Config") :=
    (map_eq_error_iff (f := fun _ => ())).mp (by decide +kernel)
  have hpass := ((resolveFile_widerPolicy ⟨0⟩ (pathUse "a") pathUseScopes _ _).1 hwider).1
    (fun position name => by rw [hr]; exact nofun)
  have hboth := ((resolveFile_widerPolicy ⟨0⟩ (pathUse "c") pathUseScopes _ _).1 hwider).2 _ _
    hrefused (by decide +kernel)
  exact ⟨⟨r, hr, hpass.trans hr⟩, hboth,
    (resolveFile_widerPolicy ⟨0⟩ (pathUse "b") pathUseScopes _ _).2 hsame⟩

end NameResolution
