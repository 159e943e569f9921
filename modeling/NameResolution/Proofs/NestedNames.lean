import NameResolution.CanonicalNames
import NameResolution.Proofs.DottedNames
import NameResolution.Proofs.EnclosingTypes
import NameResolution.Proofs.RegisteredRoots

/-!
# Names of nested types

A table in which every nested type was added after the type that encloses it is
`TypeTable.Ordered`. Going outward goes to smaller numbers there (`Ordered.lt_of_enclosing?`), so
every chain ends at a type that nothing encloses (`Ordered.exists_leadsTo`), and in front of the
simple name of a nested type stands the name of the type that encloses it
(`Acyclic.map_nestingPath?_nested`).

Types that are added later have greater numbers than all that a chain of the table meets. So
`Ordered.enclosingChain_addAll` asks nothing of them, and they may well enclose each other in a
circle.
-/

namespace NameResolution

/-- A type that is added to a table. -/
inductive TypeAddition where
  | root (package : Option String) (simpleName : String) (outputNamespace : Option String)
  | nested (enclosing : TypeId) (simpleName : String)
deriving DecidableEq, Repr

/-- The table already has the type that is to enclose the new one. -/
def TypeAddition.Fits (table : TypeTable) : TypeAddition → Prop
  | root _ _ _ => True
  | nested enclosing _ => enclosing < table.size

/-- How the new type is declared. -/
def TypeAddition.decl : TypeAddition → TypeDecl
  | root package simpleName outputNamespace => ⟨simpleName, package, none, outputNamespace⟩
  | nested enclosing simpleName => ⟨simpleName, none, some enclosing, none⟩

namespace TypeTable

/-- Adds a type of either form. -/
def perform (table : TypeTable) : TypeAddition → TypeTable
  | .root package simpleName outputNamespace =>
    (table.addRoot package simpleName outputNamespace).2
  | .nested enclosing simpleName => (table.addNested enclosing simpleName).2

/-- Adds one type after the other. -/
def addAll (table : TypeTable) (additions : List TypeAddition) : TypeTable :=
  additions.foldl perform table

/-- Every nested type was added after the type that encloses it. -/
inductive Ordered : TypeTable → Prop where
  | empty : Ordered .empty
  | perform {table : TypeTable} (h : table.Ordered) {addition : TypeAddition}
      (hfits : addition.Fits table) : Ordered (table.perform addition)

variable {table later : TypeTable} {id outer : TypeId} {decl : TypeDecl}

/-! ## Additions -/

theorem perform_eq (table : TypeTable) (addition : TypeAddition) :
    table.perform addition = (table.add addition.decl).2 := by
  cases addition <;> rfl

theorem size_perform (table : TypeTable) (addition : TypeAddition) :
    (table.perform addition).size = table.size + 1 := by
  rw [perform_eq]
  exact Array.size_push _

theorem get?_perform (table : TypeTable) (addition : TypeAddition) (id : TypeId) :
    (table.perform addition).get? id =
      if id = table.size then some addition.decl else table.get? id := by
  rw [perform_eq, get?_add]

theorem lt_size_of_get? (hget : table.get? id = some decl) : id < table.size :=
  (Array.getElem?_eq_some_iff.mp hget).1

theorem size_le_addAll (table : TypeTable) (additions : List TypeAddition) :
    table.size ≤ (table.addAll additions).size := by
  induction additions generalizing table with
  | nil => exact Nat.le_refl _
  | cons addition additions ih =>
    have hstep := size_perform table addition
    have hrest := ih (table.perform addition)
    show table.size ≤ ((table.perform addition).addAll additions).size
    omega

/-- A type keeps its number and its declaration. -/
theorem get?_addAll (additions : List TypeAddition) (hid : id < table.size) :
    (table.addAll additions).get? id = table.get? id := by
  induction additions generalizing table with
  | nil => rfl
  | cons addition additions ih =>
    have hid' : id < (table.perform addition).size := by
      rw [size_perform]
      exact Nat.lt_succ_of_lt hid
    show ((table.perform addition).addAll additions).get? id = _
    rw [ih hid', get?_perform, if_neg (Nat.ne_of_lt hid)]

/-! ## Chains -/

/-- Chains go through the smaller numbers only, so two tables that agree on these have the same
ones, as long as there are steps enough. -/
theorem chainFrom_congr (hagree : ∀ i ≤ id, later.get? i = table.get? i)
    (hlt : ∀ i ≤ id, ∀ outer, table.enclosing? i = some outer → outer < i) {steps steps' : Nat}
    (hsteps : id < steps) (hsteps' : id < steps') :
    later.chainFrom steps id = table.chainFrom steps' id := by
  induction id using Nat.strongRecOn generalizing steps steps' with
  | ind id ih =>
    obtain ⟨steps, rfl⟩ := Nat.exists_eq_add_one_of_ne_zero (Nat.ne_zero_of_lt hsteps)
    obtain ⟨steps', rfl⟩ := Nat.exists_eq_add_one_of_ne_zero (Nat.ne_zero_of_lt hsteps')
    have hsame := hagree id (Nat.le_refl id)
    cases hget : table.get? id with
    | none => rw [chainFrom_of_get?_eq_none (hsame.trans hget), chainFrom_of_get?_eq_none hget]
    | some decl =>
      rw [chainFrom_succ (hsame.trans hget), chainFrom_succ hget]
      cases hout : decl.enclosing with
      | none => rfl
      | some outer =>
        have houter := hlt id (Nat.le_refl id) outer (encloses_of_get? hget hout)
        have hle {i : TypeId} (hi : i ≤ outer) : i ≤ id :=
          Nat.le_of_lt (Nat.lt_of_le_of_lt hi houter)
        have hrest : later.chainFrom steps outer = table.chainFrom steps' outer :=
          ih outer houter (fun i hi => hagree i (hle hi)) (fun i hi => hlt i (hle hi))
            (Nat.lt_of_lt_of_le houter (Nat.le_of_lt_succ hsteps))
            (Nat.lt_of_lt_of_le houter (Nat.le_of_lt_succ hsteps'))
        rw [Option.map_some, Option.map_some, hrest]

/-- A chain that leads from a type outward to `root`: types of the table, each followed by the one
that encloses it, and nothing encloses the last. -/
structure LeadsTo (table : TypeTable) (id root : TypeId) (chain : List (TypeId × TypeDecl)) :
    Prop where
  head : chain.head?.map Prod.fst = some id
  declared : ∀ entry ∈ chain, table.get? entry.1 = some entry.2
  enclosed : chain.IsChain fun inner outer => inner.2.enclosing = some outer.1
  decreasing : chain.Pairwise fun inner outer => outer.1 < inner.1
  last : ∃ decl, chain.getLast? = some (root, decl) ∧ decl.enclosing = none

/-- A longer chain. The type in front is enclosed by the one that the chain leads from. -/
theorem LeadsTo.cons {root : TypeId} {chain : List (TypeId × TypeDecl)}
    (h : table.LeadsTo outer root chain) (hget : table.get? id = some decl)
    (houter : decl.enclosing = some outer) (hlt : outer < id) :
    table.LeadsTo id root ((id, decl) :: chain) := by
  obtain ⟨hhead, hdeclared, henclosed, hdecreasing, hlast⟩ := h
  obtain _ | ⟨⟨i, decl'⟩, chain⟩ := chain
  · cases hhead
  obtain rfl : i = outer := Option.some.inj hhead
  refine ⟨rfl, ?_, ?_, ?_, ?_⟩
  · exact List.forall_mem_cons.mpr ⟨hget, hdeclared⟩
  · exact .cons_cons houter henclosed
  · refine List.pairwise_cons.mpr ⟨fun entry hentry => ?_, hdecreasing⟩
    rcases List.mem_cons.mp hentry with rfl | hentry
    · exact hlt
    · exact Nat.lt_trans ((List.pairwise_cons.mp hdecreasing).1 entry hentry) hlt
  · rwa [List.getLast?_cons_cons]

namespace Ordered

/-- **A type is enclosed by a smaller number.** -/
theorem lt_of_enclosing? (h : table.Ordered) (houter : table.enclosing? id = some outer) :
    outer < id := by
  induction h with
  | empty => cases houter
  | @perform table h addition hfits ih =>
    unfold enclosing? at houter
    rw [get?_perform] at houter
    by_cases hid : id = table.size
    · rw [if_pos hid, Option.bind_some] at houter
      cases addition with
      | root package simpleName outputNamespace => cases houter
      | nested enclosing simpleName =>
        obtain rfl : enclosing = outer := Option.some.inj houter
        exact hid ▸ hfits
    · rw [if_neg hid] at houter
      exact ih houter

theorem acyclic (h : table.Ordered) : table.Acyclic :=
  acyclic_of_lt (fun id => id) fun _ _ houter => h.lt_of_enclosing? houter

/-- The table has the types that enclose its types. -/
theorem exists_get?_of_enclosing (h : table.Ordered) (hget : table.get? id = some decl)
    (houter : decl.enclosing = some outer) : ∃ decl', table.get? outer = some decl' := by
  have hlt := h.lt_of_enclosing? (encloses_of_get? hget houter)
  have hsize := lt_size_of_get? hget
  exact ⟨_, Array.getElem?_eq_getElem (Nat.lt_trans hlt hsize)⟩

theorem exists_leadsTo (h : table.Ordered) (hget : table.get? id = some decl) :
    ∃ root, table.LeadsTo id root (table.enclosingChain id) := by
  induction id using Nat.strongRecOn generalizing decl with
  | ind id ih =>
    have hchain := h.acyclic.enclosingChain_eq hget
    cases hout : decl.enclosing with
    | none =>
      rw [hout] at hchain
      rw [hchain]
      exact ⟨id, rfl, by simpa using hget, .singleton _, List.pairwise_singleton _ _, decl, rfl,
        hout⟩
    | some outer =>
      have hlt := h.lt_of_enclosing? (encloses_of_get? hget hout)
      obtain ⟨decl', hget'⟩ := h.exists_get?_of_enclosing hget hout
      obtain ⟨root, hroot⟩ := ih outer hlt hget'
      rw [hout, Option.map_some, Option.getD_some] at hchain
      rw [hchain]
      exact ⟨root, hroot.cons hget hout hlt⟩

/-- Later types stay out of the chains of the types that are there. -/
theorem enclosingChain_addAll (h : table.Ordered) (additions : List TypeAddition)
    (hid : id < table.size) :
    (table.addAll additions).enclosingChain id = table.enclosingChain id := by
  apply chainFrom_congr
  · exact fun i hi => get?_addAll additions (Nat.lt_of_le_of_lt hi hid)
  · exact fun i _ outer houter => h.lt_of_enclosing? houter
  · exact Nat.lt_of_lt_of_le hid (size_le_addAll table additions)
  · exact hid

end Ordered

/-! ## Names -/

theorem below_member (ns : Option String) (path field : String) :
    below ns (Dotted.member path field) = Dotted.member (below ns path) field := by
  cases ns with
  | none => rfl
  | some ns => exact (Dotted.member_append (ns ++ ".") path field).symm

theorem nestingPath?_of_enclosingChain {chain : List (TypeId × TypeDecl)}
    {last : TypeId × TypeDecl} (hchain : table.enclosingChain id = chain)
    (hlast : chain.getLast? = some last) :
    table.nestingPath? id =
      some (Dotted.join (chain.reverse.map (·.2.simpleName)), last.2) := by
  subst hchain
  unfold nestingPath?
  dsimp only
  rw [hlast]
  rfl

namespace Acyclic

variable (hacyclic : table.Acyclic)
include hacyclic

theorem nestingPath?_nested {decl' : TypeDecl} (hget : table.get? id = some decl)
    (houter : decl.enclosing = some outer) (hget' : table.get? outer = some decl') :
    table.nestingPath? id = (table.nestingPath? outer).map fun (path, root) =>
      (Dotted.member path decl.simpleName, root) := by
  have hchain := hacyclic.enclosingChain_eq hget
  rw [houter, Option.map_some, Option.getD_some] at hchain
  -- the chain of the enclosing type has at least that type
  have hne : table.enclosingChain outer ≠ [] := by
    rw [hacyclic.enclosingChain_eq hget']
    exact List.cons_ne_nil _ _
  have hlast := List.getLast?_eq_some_getLast hne
  rw [nestingPath?_of_enclosingChain rfl hlast, nestingPath?_of_enclosingChain hchain
    (by rw [List.getLast?_cons, hlast, Option.getD_some])]
  have hnames : (table.enclosingChain outer).reverse.map (·.2.simpleName) ≠ [] := by
    simpa using hne
  rw [List.reverse_cons, List.map_append, List.map_singleton,
    Dotted.join_append hnames (List.cons_ne_nil _ _), Dotted.join_singleton]
  rfl

/-- Below whatever namespace the root says, a nested type is a member of the enclosing type. -/
theorem map_nestingPath?_nested {decl' : TypeDecl} (ns : TypeDecl → Option String)
    (hget : table.get? id = some decl) (houter : decl.enclosing = some outer)
    (hget' : table.get? outer = some decl') :
    ((table.nestingPath? id).map fun (path, root) => below (ns root) path) =
      ((table.nestingPath? outer).map fun (path, root) => below (ns root) path).map
        (Dotted.member · decl.simpleName) := by
  rw [hacyclic.nestingPath?_nested hget houter hget', Option.map_map, Option.map_map]
  congr 1
  funext ⟨path, root⟩
  exact below_member (ns root) path decl.simpleName

end Acyclic

/-- **The names of nested types.** Where every nested type was added after the type that encloses
it, a chain goes through ever smaller numbers to the root of the type, the names of a nested type
are those of the enclosing type with its simple name behind a dot, and a root is named below its
package and its output namespace. Whatever is added later, none of this changes. -/
theorem composes_of_ordered (h : table.Ordered) :
    (∀ id decl, table.get? id = some decl →
      ∃ root, table.LeadsTo id root (table.enclosingChain id) ∧ table.rootOf? id = some root) ∧
    (∀ id decl outer, table.get? id = some decl → decl.enclosing = some outer →
      ∃ source output, table.sourceName? outer = some source ∧
        table.outputName? outer = some output ∧
        table.sourceName? id = some (source ++ "." ++ decl.simpleName) ∧
        table.outputName? id = some (output ++ "." ++ decl.simpleName)) ∧
    (∀ id decl, table.get? id = some decl → decl.enclosing = none →
      table.sourceName? id = some (below decl.package decl.simpleName) ∧
        table.outputName? id = some (below decl.outputNamespace decl.simpleName)) ∧
    (∀ (names : CanonicalNames) id, (names.nameOf? id).1 = names.types.outputName? id) ∧
    ∀ additions id, id < table.size →
      let grown := table.addAll additions
      grown.get? id = table.get? id ∧ grown.rootOf? id = table.rootOf? id ∧
        grown.enclosingChain id = table.enclosingChain id ∧
        grown.sourceName? id = table.sourceName? id ∧
        grown.outputName? id = table.outputName? id := by
  refine ⟨?_, ?_, ?_, ?_, ?_⟩
  · intro id decl hget
    obtain ⟨root, hroot⟩ := h.exists_leadsTo hget
    obtain ⟨last, hlast, -⟩ := hroot.last
    refine ⟨root, hroot, ?_⟩
    unfold rootOf?
    rw [hlast, Option.map_some]
  · intro id decl outer hget houter
    obtain ⟨decl', hget'⟩ := h.exists_get?_of_enclosing hget houter
    obtain ⟨root, hroot⟩ := h.exists_leadsTo hget'
    obtain ⟨last, hlast, -⟩ := hroot.last
    have hpath := nestingPath?_of_enclosingChain rfl hlast
    have hsource := h.acyclic.map_nestingPath?_nested TypeDecl.package hget houter hget'
    have houtput := h.acyclic.map_nestingPath?_nested TypeDecl.outputNamespace hget houter hget'
    unfold sourceName? outputName?
    rw [hsource, houtput, hpath]
    exact ⟨_, _, rfl, rfl, rfl, rfl⟩
  · intro id decl hget houter
    have hpath := h.acyclic.nestingPath?_top hget fun outer hout => by simp [houter] at hout
    unfold sourceName? outputName?
    rw [hpath]
    exact ⟨rfl, rfl⟩
  · intro names id
    rw [CanonicalNames.nameOf?_eq]
  · intro additions id hid grown
    have hchain := h.enclosingChain_addAll additions hid
    refine ⟨get?_addAll additions hid, ?_, hchain, ?_, ?_⟩
    · unfold rootOf?
      rw [hchain]
    · unfold sourceName? nestingPath?
      rw [hchain]
    · unfold outputName? nestingPath?
      rw [hchain]

/-- A class in a class in a class. -/
def threeDeep : List TypeAddition :=
  [.root (some "app") "Outer" (some "gen"), .nested 0 "Middle", .nested 1 "Inner"]

/-- Two types that enclose each other. -/
def lateCircle : List TypeAddition := [.nested 4 "Left", .nested 3 "Right"]

theorem ordered_threeDeep : (empty.addAll threeDeep).Ordered := by
  have hroot : (empty.perform (.root (some "app") "Outer" (some "gen"))).Ordered :=
    .perform .empty trivial
  have hmiddle := Ordered.perform hroot (show (TypeAddition.nested 0 "Middle").Fits _ from
    Nat.zero_lt_one)
  exact .perform hmiddle (show (TypeAddition.nested 1 "Inner").Fits _ from Nat.one_lt_two)

theorem composes_threeDeep :
    let table := empty.addAll threeDeep
    (table.addAll lateCircle).outputName? 2 = some "gen.Outer.Middle.Inner" ∧
      (table.addAll lateCircle).rootOf? 2 = some 0 := by
  intro table
  obtain ⟨hchain, hnested, hroot, -, hgrown⟩ := composes_of_ordered ordered_threeDeep
  obtain ⟨-, hkeptRoot, -, -, hkeptName⟩ := hgrown lateCircle 2 (by decide)
  rw [hkeptName, hkeptRoot]
  constructor
  · obtain ⟨-, output, -, houter, -, hinner⟩ := hnested 2 _ 1 rfl rfl
    obtain ⟨-, top, -, htop, -, hmiddle⟩ := hnested 1 _ 0 rfl rfl
    rw [hinner]
    obtain rfl := Option.some.inj (houter.symm.trans hmiddle)
    obtain rfl := Option.some.inj (htop.symm.trans (hroot 0 _ rfl rfl).2)
    rfl
  · rfl

end TypeTable

end NameResolution
