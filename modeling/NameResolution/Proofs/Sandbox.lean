import NameResolution.Proofs.Checks
import NameResolution.Scope.Builder
import NameResolution.Syntax.Build

/-!
# The policy has seen every name

`accepted_of_resolveFile` says of every node of a resolved file that the policy accepts what the
node names: the type of a type reference, and the qualifier of a field access on a name that means
nothing in its scope. A field access that is itself a qualifier is part of a longer one.
-/

namespace NameResolution

namespace Node

/-- A chain that ends at a name is a dotted text. -/
theorem text_isSome_of_chainEnd {node : Node} {first : String}
    (h : node.chainEnd.kind = .name first) : node.text.isSome := by
  induction node using Node.induction with
  | step kind start children ih =>
    cases kind with
    | fieldAccess field =>
      cases children with
      | nil => cases h
      | cons q rest =>
        show (q.text.map (Dotted.member · field)).isSome
        rw [Option.isSome_map]
        exact ih q List.mem_cons_self h
    | name ident => rfl
    | _ => cases h

/-- So is the qualifier of a field access on a name. -/
theorem qualifier?_text_isSome {node : Node} {first : String}
    (h : node.leftmost?.map Node.kind = some (.name first)) :
    ∃ text, node.qualifier?.bind Node.text = some text := by
  obtain ⟨value, hleft, hkind⟩ := Option.map_eq_some_iff.mp h
  obtain ⟨q, hq, rfl⟩ := Option.map_eq_some_iff.mp hleft
  rw [hq]
  exact Option.isSome_iff_exists.mp (text_isSome_of_chainEnd hkind)

theorem text_isSome_of_leftmost? {node : Node} {first : String}
    (h : node.leftmost?.map Node.kind = some (.name first)) : node.text.isSome := by
  obtain ⟨value, hleft, hkind⟩ := Option.map_eq_some_iff.mp h
  obtain ⟨q, hq, rfl⟩ := Option.map_eq_some_iff.mp hleft
  rw [← chainEnd_of_qualifier?_eq_some hq] at hkind
  exact text_isSome_of_chainEnd hkind

end Node

namespace Context

variable {ctx : Context} {root node : Node} {p : Place} {scope : ScopeId}

theorem Reached.typeRef (h : ctx.Reached root p node scope) {segments : List String}
    (hkind : node.kind = .typeRef segments) (hsegments : segments ≠ []) :
    ctx.policy.accepts (ctx.scopes.checkedName scope segments) = true := by
  obtain ⟨occurrence, hdenotes⟩ := h.denotes (by rw [hkind]; rfl) (by rw [hkind]; rfl)
  rw [Context.denotes, hkind] at hdenotes
  obtain ⟨_, hcheck, -⟩ := map_eq_ok_iff.mp hdenotes
  exact (checkType_eq_ok_iff hsegments).mp hcheck

/-- A name that means nothing leaves three early ends of a field access out. -/
theorem Reached.qualifier (h : ctx.Reached root p node scope) (hwhole : ¬ root.IsQualifier p)
    {first : String} (hleft : node.leftmost?.map Node.kind = some (.name first))
    (hthis : first ≠ "this") (hident : ctx.scopes.resolveIdentifier scope first = none)
    (htype : ctx.scopes.resolveType scope first = none) :
    ∃ text, node.qualifier?.bind Node.text = some text ∧ ctx.policy.accepts text = true := by
  cases h with
  | onChain hchain _ => exact absurd hchain.isQualifier hwhole
  | visited hdenotes =>
    obtain ⟨value, hvalue, -⟩ := Option.map_eq_some_iff.mp hleft
    rw [denotes_eq_fieldAccess hvalue, fieldAccess_of_name hleft] at hdenotes
    rcases namedAccess_eq_ok hdenotes with
      ⟨hsome, -⟩ | ⟨-, ⟨hsome, -⟩ | ⟨hnone, -⟩ | ⟨text, -, haccepts, -⟩⟩
    · rw [hident] at hsome
      cases hsome
    · rw [htype] at hsome
      cases hsome
    · have htext := Node.text_isSome_of_leftmost? hleft
      rw [hnone] at htext
      cases htext
    · obtain ⟨text, htext⟩ := Node.qualifier?_text_isSome hleft
      have haccepts := haccepts hthis
      rw [htext, Option.getD_some] at haccepts
      exact ⟨text, htext, haccepts⟩

end Context

/-- **A resolved file names nothing that the policy refuses.** -/
theorem accepted_of_resolveFile {file : FileId} {root : Node} {scopes : ScopeTree}
    {policy : Policy} {r : Resolution} (hconv : root.FollowsConventions)
    (hok : resolveFile file root scopes policy = .ok r) :
    ∀ p node, root.at? p = some node →
      ∃ scope, (⟨file, scopes, policy⟩ : Context).scopeAt? root p = some scope ∧
        (∀ segments, node.kind = .typeRef segments → segments ≠ [] →
          policy.accepts (scopes.checkedName scope segments) = true) ∧
        ∀ first, ¬ root.IsQualifier p → node.leftmost?.map Node.kind = some (.name first) →
          first ≠ "this" → scopes.resolveIdentifier scope first = none →
          scopes.resolveType scope first = none →
          ∃ text, node.qualifier?.bind Node.text = some text ∧ policy.accepts text = true := by
  intro p node hnode
  obtain ⟨hpass, -⟩ := resolveFile_eq_ok_iff.mp hok
  obtain ⟨scope, hscope, hreached⟩ := Context.reached hconv hpass hnode
  refine ⟨scope, hscope, fun segments hkind hsegments => hreached.typeRef hkind hsegments, ?_⟩
  intro first hwhole hleft hthis hident htype
  exact hreached.qualifier hwhole hleft hthis hident htype

/-- A method that uses a base library type with a type argument of its own file, and a field of a
class in an allowed namespace. -/
def libraryUse : Node :=
  .compilationUnit
    [.classDecl ⟨1, 0⟩ "Main" false
      [.methodDecl ⟨2, 0⟩ "run"
        [⟨.typeRef ["java", "lang", "Iterable"], ⟨3, 0⟩, [⟨.typeRef ["Main"], ⟨3, 19⟩, []⟩]⟩,
          .fieldOf ⟨4, 0⟩ (.fieldOf ⟨4, 0⟩ (.simpleName ⟨4, 0⟩ "a") "Config") "limit"]]]

def libraryUseScopes : ScopeTree :=
  .build
    [.enter .compilationUnit "unit", .declareType "Main" "a.Main", .enterMembers "Main" "a.Main",
      .enter .callable "run"]

def libraryUsePolicy : Policy := .build [.allowDefaultBaseClasses, .allowNamespace "a"]

theorem accepted_libraryUse :
    (∃ r, resolveFile ⟨0⟩ libraryUse libraryUseScopes libraryUsePolicy = .ok r) ∧
      libraryUsePolicy.accepts (libraryUseScopes.checkedName 3 ["Main"]) = true ∧
      ∃ text, (libraryUse.at? [0, 0, 1]).bind (·.qualifier?.bind Node.text) = some text ∧
        libraryUsePolicy.accepts text = true := by
  have hconv : libraryUse.FollowsConventions := by
    simp [libraryUse, Node.compilationUnit, Node.classDecl, Node.methodDecl, Node.simpleName,
      Node.fieldOf, Node.followsConventions_mk, NodeKind.startsPath, NodeKind.isFieldAccess]
  obtain ⟨r, hr⟩ : ∃ r, resolveFile ⟨0⟩ libraryUse libraryUseScopes libraryUsePolicy = .ok r :=
    exists_eq_ok_of_isSome (by decide +kernel)
  have hwhole : ¬ libraryUse.IsQualifier [0, 0, 1] := by
    rintro ⟨q, access, hp, -⟩
    have hlast := congrArg List.getLast? hp
    simp at hlast
  have hscope (p : Place) (scope : ScopeId)
      (h : (⟨⟨0⟩, libraryUseScopes, libraryUsePolicy⟩ : Context).scopeAt? libraryUse p = some scope)
      (hp : (⟨⟨0⟩, libraryUseScopes, libraryUsePolicy⟩ : Context).scopeAt? libraryUse p = some 3) :
      scope = 3 := Option.some.inj (h.symm.trans hp)
  obtain ⟨inner, hinner, htype, -⟩ := accepted_of_resolveFile hconv hr [0, 0, 0, 0] _ rfl
  obtain ⟨outer, houter, -, haccess⟩ := accepted_of_resolveFile hconv hr [0, 0, 1] _ rfl
  obtain rfl := hscope _ inner hinner (by decide +kernel)
  obtain rfl := hscope _ outer houter (by decide +kernel)
  exact ⟨⟨r, hr⟩, htype ["Main"] rfl (by simp),
    haccess "a" hwhole rfl (by simp) (by decide +kernel) (by decide +kernel)⟩

end NameResolution
