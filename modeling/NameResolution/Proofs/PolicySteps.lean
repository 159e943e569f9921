import NameResolution.Proofs.PolicyClosure

/-!
# What the steps of a policy come to

A step sets the base namespace, or it allows namespaces or classes, one or many at a time. A policy
that steps set up holds all that they allow, as if they had allowed it in one go, and the base
namespace that was set last (`build_eq`). The order of what is listed makes no difference to what is
accepted, so of the order of the steps only the last base namespace counts
(`accepts_build_of_subset`, `build_listsContent`).
-/

namespace NameResolution

namespace PolicyStep

/-- The base namespace that a step sets, as it is written. -/
def baseNamespace? : PolicyStep → Option String
  | baseNamespace ns => some ns
  | allowNamespace _ | allowNamespaces _ | allowBaseClass _ | allowBaseClasses _
  | allowDefaultBaseClasses => none

/-- The namespaces that a step allows, as they are written. -/
def namespaces : PolicyStep → List String
  | allowNamespace ns => [ns]
  | allowNamespaces nss => nss
  | baseNamespace _ | allowBaseClass _ | allowBaseClasses _ | allowDefaultBaseClasses => []

/-- The classes of the base library that a step allows. -/
def classes : PolicyStep → List String
  | allowBaseClass cls => [cls]
  | allowBaseClasses classes => classes
  | allowDefaultBaseClasses => defaultBaseClasses
  | baseNamespace _ | allowNamespace _ | allowNamespaces _ => []

end PolicyStep

namespace Policy

/-- Namespaces without their final dots. Those that are nothing but dots are left out. -/
def trimmed (nss : List String) : List String :=
  (nss.map Dotted.trimDots).filter fun ns => ns ≠ ""

/-- The base namespaces that steps set, as they are written. -/
def baseNamespaces (steps : List PolicyStep) : List String :=
  steps.filterMap PolicyStep.baseNamespace?

theorem trimmed_append (nss later : List String) :
    trimmed (nss ++ later) = trimmed nss ++ trimmed later := by
  unfold trimmed
  rw [List.map_append, List.filter_append]

/-! ## From one step to the next -/

variable (base : String) (classes listed : OrderedSet String)

/-- A namespace that is allowed goes, trimmed, into the set of those that are listed. -/
theorem allowNamespace_eq (ns : String) :
    allowNamespace ⟨base, classes, listed.toList⟩ ns =
      ⟨base, classes, (listed.insertAll (trimmed [ns])).toList⟩ := by
  unfold allowNamespace
  dsimp only
  by_cases hempty : Dotted.trimDots ns = ""
  · have hnone : trimmed [ns] = [] := by simp [trimmed, hempty]
    rw [if_pos (.inl hempty), hnone]
    rfl
  · have hone : trimmed [ns] = [Dotted.trimDots ns] := by simp [trimmed, hempty]
    have hinsert : (listed.insertAll [Dotted.trimDots ns]).toList =
        if Dotted.trimDots ns ∈ listed then listed.toList
        else listed.toList ++ [Dotted.trimDots ns] := OrderedSet.toList_insert _ _
    rw [hone, hinsert]
    by_cases hknown : Dotted.trimDots ns ∈ listed
    · rw [if_pos (.inr hknown), if_pos hknown]
    · have hnew : ¬ (Dotted.trimDots ns = "" ∨ Dotted.trimDots ns ∈ listed.toList) :=
        not_or.mpr ⟨hempty, hknown⟩
      rw [if_neg hnew, if_neg hknown]

theorem allowNamespaces_eq (nss : List String) :
    nss.foldl allowNamespace ⟨base, classes, listed.toList⟩ =
      ⟨base, classes, (listed.insertAll (trimmed nss)).toList⟩ := by
  induction nss generalizing listed with
  | nil => rfl
  | cons ns nss ih =>
    rw [List.foldl_cons, allowNamespace_eq, ih, ← OrderedSet.insertAll_append, ← trimmed_append,
      List.singleton_append]

/-- A step adds what it allows, and replaces the base namespace if it sets one. -/
theorem step_eq (step : PolicyStep) :
    Policy.step ⟨base, classes, listed.toList⟩ step =
      ⟨(step.baseNamespace?.map Dotted.trimDots).getD base, classes.insertAll step.classes,
        (listed.insertAll (trimmed step.namespaces)).toList⟩ := by
  cases step with
  | baseNamespace ns => rfl
  | allowNamespace ns => exact allowNamespace_eq base classes listed ns
  | allowNamespaces nss => exact allowNamespaces_eq base classes listed nss
  | allowBaseClass cls => rfl
  | allowBaseClasses clss => rfl
  | allowDefaultBaseClasses => rw [step, allowBaseClasses]; rfl

theorem foldl_step_eq (steps : List PolicyStep) :
    steps.foldl step ⟨base, classes, listed.toList⟩ =
      ⟨((baseNamespaces steps).getLast?.map Dotted.trimDots).getD base,
        classes.insertAll (steps.flatMap PolicyStep.classes),
        (listed.insertAll (trimmed (steps.flatMap PolicyStep.namespaces))).toList⟩ := by
  induction steps generalizing base classes listed with
  | nil => rfl
  | cons first steps ih =>
    have hlast : ((baseNamespaces (first :: steps)).getLast?.map Dotted.trimDots).getD base =
        ((baseNamespaces steps).getLast?.map Dotted.trimDots).getD
          ((first.baseNamespace?.map Dotted.trimDots).getD base) := by
      unfold baseNamespaces
      rw [List.filterMap_cons]
      cases first.baseNamespace? with
      | none => rfl
      | some ns => rw [List.getLast?_cons]; cases (steps.filterMap _).getLast? <;> rfl
    rw [List.foldl_cons, step_eq, ih, hlast, List.flatMap_cons, List.flatMap_cons, trimmed_append,
      OrderedSet.insertAll_append, OrderedSet.insertAll_append]

/-! ## All steps -/

/-- **A policy is what its steps allow altogether.** -/
theorem build_eq (steps : List PolicyStep) :
    build steps =
      ⟨((baseNamespaces steps).getLast?.map Dotted.trimDots).getD defaultBaseNamespace,
        .ofList (steps.flatMap PolicyStep.classes),
        (trimmed (steps.flatMap PolicyStep.namespaces)).eraseDups⟩ := by
  rw [← OrderedSet.toList_ofList]
  exact foldl_step_eq defaultBaseNamespace .empty .empty steps

variable {steps steps' : List PolicyStep} {name : String}

theorem mem_trimmed {ns : String} {nss : List String} :
    ns ∈ trimmed nss ↔ ns ≠ "" ∧ ∃ written ∈ nss, Dotted.trimDots written = ns := by
  unfold trimmed
  rw [List.mem_filter, List.mem_map, decide_eq_true_eq, and_comm]

/-- More steps accept more, as long as they come to the same base namespace. -/
theorem accepts_build_of_subset (hsteps : steps ⊆ steps')
    (hbase : (baseNamespaces steps').getLast? = (baseNamespaces steps).getLast?)
    (h : (build steps).accepts name = true) : (build steps').accepts name = true := by
  have hmem {allowed : PolicyStep → List String} {text : String}
      (htext : text ∈ steps.flatMap allowed) : text ∈ steps'.flatMap allowed := by
    obtain ⟨step, hstep, htext⟩ := List.mem_flatMap.mp htext
    exact List.mem_flatMap.mpr ⟨step, hsteps hstep, htext⟩
  rw [build_eq] at h ⊢
  refine accepts_of_subset ?_ (fun cls hcls => ?_) (fun ns hns => ?_) h
  · rw [hbase]
  · exact (OrderedSet.mem_ofList _ _).mpr (hmem ((OrderedSet.mem_ofList _ _).mp hcls))
  · rw [List.mem_eraseDups, mem_trimmed] at hns ⊢
    obtain ⟨hne, written, hwritten, htrim⟩ := hns
    exact ⟨hne, written, hmem hwritten, htrim⟩

/-- **What the steps say counts, not in which order or how often they say it.** The namespaces are
those that the steps allow, trimmed, and the classes are those that they allow, each once and in the
order in which they first come; the base namespace is the one that was set last. Steps that are put
in another order, or taken several times, accept the same names if they come to the same base
namespace. Where steps that only allow something are put in, what was accepted still is. -/
theorem build_listsContent (steps : List PolicyStep) :
    (build steps).namespaces = (trimmed (steps.flatMap PolicyStep.namespaces)).eraseDups ∧
    (build steps).baseClasses.toList = (steps.flatMap PolicyStep.classes).eraseDups ∧
    (build steps).baseNamespace =
      ((baseNamespaces steps).getLast?.map Dotted.trimDots).getD defaultBaseNamespace ∧
    (∀ steps', (∀ step, step ∈ steps' ↔ step ∈ steps) →
      (baseNamespaces steps').getLast? = (baseNamespaces steps).getLast? →
      ∀ name, (build steps').accepts name = (build steps).accepts name) ∧
    ∀ steps', steps.Sublist steps' → baseNamespaces steps' = baseNamespaces steps →
      ∀ name, (build steps).accepts name = true → (build steps').accepts name = true := by
  have hbuild := build_eq steps
  refine ⟨congrArg namespaces hbuild, ?_, congrArg baseNamespace hbuild, ?_, ?_⟩
  · rw [hbuild]
    exact OrderedSet.toList_ofList _
  · intro steps' hsame hbase name
    refine Bool.eq_iff_iff.mpr ⟨?_, ?_⟩
    · exact accepts_build_of_subset (fun step => (hsame step).mp) hbase.symm
    · exact accepts_build_of_subset (fun step => (hsame step).mpr) hbase
  · intro steps' hinserted hbases name
    exact accepts_build_of_subset hinserted.subset (congrArg List.getLast? hbases)

/-- Two base namespaces, of which the last counts, and a namespace in several spellings. -/
def repeatedSteps : List PolicyStep :=
  [.baseNamespace "js.base.", .allowNamespaces ["a.b.", "a.b", "", ".."], .allowBaseClass "Math",
    .baseNamespace "java.lang."]

/-- The same steps with the class first and once more. -/
def reorderedSteps : List PolicyStep :=
  [.allowBaseClass "Math", .allowNamespaces ["a.b.", "a.b", "", ".."], .baseNamespace "js.base.",
    .allowBaseClass "Math", .baseNamespace "java.lang."]

theorem listsContent_repeatedSteps :
    (build repeatedSteps).namespaces = ["a.b"] ∧
      (build repeatedSteps).baseClasses.toList = ["Math"] ∧
      (build repeatedSteps).baseNamespace = "java.lang" ∧
      (∀ name, (build reorderedSteps).accepts name = (build repeatedSteps).accepts name) ∧
      ∀ name, (build repeatedSteps).accepts name = true →
        (build (.allowDefaultBaseClasses :: repeatedSteps)).accepts name = true := by
  obtain ⟨hnamespaces, hclasses, hbase, hsame, hmore⟩ := build_listsContent repeatedSteps
  refine ⟨hnamespaces.trans (by decide +kernel), hclasses.trans (by decide +kernel),
    hbase.trans (by decide +kernel), hsame reorderedSteps (fun step => ?_) rfl,
    hmore _ (List.sublist_cons_self _ _) rfl⟩
  simp only [reorderedSteps, repeatedSteps, List.mem_cons]
  tauto

end Policy

end NameResolution
