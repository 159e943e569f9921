import NameResolution.Scope.Builder

/-!
# What a builder keeps

A builder does three things to its tree: it opens a scope as the last child of the current one,
closes the current scope, or declares a name in it (`Builder.step_cases`). So a property holds of
every tree that can be built when it holds of the root alone and those three keep it
(`Builder.run_induction`).

`ScopeTree.Linked` is such a property: parents and children agree, and children are numbered in the
order in which they came. `Scope.Tabled` is another: each declaration is the one that is found under
its name. `ScopeTree.Lists.run` says which scope has which number, and `ScopeTree.Records.run` what
is found in it.
-/

namespace NameResolution

/-- What a scope is entered with. -/
def Scope.heading (scope : Scope) : String × ScopeKind × Option String :=
  (scope.name, scope.kind, scope.owner)

namespace ScopeTree

/-- The scope that a step enters. -/
def BuildStep.heading? : BuildStep → Option (String × ScopeKind × Option String)
  | .enter kind name => some (name, kind, none)
  | .enterMembers name owner => some (name, .members, some owner)
  | .enterInherited name owner => some (name, .inherited, some owner)
  | _ => none

/-- The declaration that a step adds to the current scope. -/
def BuildStep.declaration? (b : Builder) : BuildStep → Option Declaration
  | .declare d => some d
  | .declareVariable name => some ⟨name, name, .localVariable, false⟩
  | .declareField name isStatic => some ⟨name, b.memberName name, .field, isStatic⟩
  | .declareMethod name isStatic => some ⟨name, b.memberName name, .method, isStatic⟩
  | .declareType name qualified => some ⟨name, qualified, .type, true⟩
  | .importType qualified => some ⟨Dotted.lastSegment qualified, qualified, .type, true⟩
  | _ => none

namespace Builder

/-- A step opens a scope, closes one or declares a name. -/
theorem step_cases (b : Builder) (step : BuildStep) :
    (∃ name kind owner, step.heading? = some (name, kind, owner) ∧
        step.declaration? b = none ∧ b.step step = b.push name kind owner) ∨
      step.heading? = none ∧ (step.declaration? b = none ∧ b.step step = b.exit ∨
        ∃ d, step.declaration? b = some d ∧ b.step step = b.declare d) := by
  cases step with
  | enter kind name => exact .inl ⟨name, kind, none, rfl, rfl, rfl⟩
  | enterMembers name owner => exact .inl ⟨name, .members, some owner, rfl, rfl, rfl⟩
  | enterInherited name owner => exact .inl ⟨name, .inherited, some owner, rfl, rfl, rfl⟩
  | exit => exact .inr ⟨rfl, .inl ⟨rfl, rfl⟩⟩
  | _ => exact .inr ⟨rfl, .inr ⟨_, rfl, rfl⟩⟩

theorem run_induction {P : Builder → Prop}
    (hpush : ∀ b name kind owner, P b → P (b.push name kind owner)) (hexit : ∀ b, P b → P b.exit)
    (hdeclare : ∀ b d, P b → P (b.declare d)) {b : Builder} (hb : P b) (steps : List BuildStep) :
    P (b.run steps) := by
  induction steps generalizing b with
  | nil => exact hb
  | cons step steps ih =>
    refine ih ?_
    rcases b.step_cases step with ⟨name, kind, owner, -, -, h⟩ | ⟨-, ⟨-, h⟩ | ⟨d, -, h⟩⟩ <;> rw [h]
    · exact hpush b name kind owner hb
    · exact hexit b hb
    · exact hdeclare b d hb

end Builder

/-! ## Parents and children -/

/-- The parent of a scope. -/
def parent? (tree : ScopeTree) (id : ScopeId) : Option ScopeId := (tree.get? id).bind Scope.parent

variable {tree : ScopeTree} {id p c : ScopeId}

theorem lt_size_of_get? {scope : Scope} (h : tree.get? id = some scope) : id < tree.size := by
  refine Nat.lt_of_not_le fun hle => ?_
  cases h.symm.trans (get?_eq_none_iff.mpr hle)

theorem exists_get?_of_lt (h : id < tree.size) : ∃ scope, tree.get? id = some scope := by
  refine Option.ne_none_iff_exists'.mp fun hnone => ?_
  exact Nat.not_le_of_lt h (get?_eq_none_iff.mp hnone)

theorem parent?_lt (h : tree.parent? c = some p) : p < c := by
  obtain ⟨scope, hget, hparent⟩ := Option.bind_eq_some_iff.mp h
  exact tree.parent_lt hget hparent

theorem lt_size_of_parent? (h : tree.parent? c = some p) : c < tree.size := by
  obtain ⟨scope, hget, -⟩ := Option.bind_eq_some_iff.mp h
  exact lt_size_of_get? hget

theorem children_eq (tree : ScopeTree) (id : ScopeId) :
    tree.children id = ((tree.get? id).map Scope.children).getD [] := by
  rw [children]
  cases tree.get? id <;> rfl

section Declaring

variable (tree) (d : Declaration)

theorem parent?_declare : (tree.modify p (·.declare d) fun s => s.parent_declare d).parent? id =
    tree.parent? id := by
  rw [parent?, get?_modify, parent?]
  split
  · cases tree.get? id <;> rfl
  · rfl

theorem children_declare : (tree.modify p (·.declare d) fun s => s.parent_declare d).children id =
    tree.children id := by
  rw [children_eq, get?_modify, children_eq]
  split
  · cases tree.get? id <;> rfl
  · rfl

end Declaring

section Adding

variable (h : p < tree.size) (name : String) (kind : ScopeKind) (owner : Option String)

theorem parent?_addScope : (tree.addScope p h name kind owner).parent? id =
    if id = tree.size then some p else tree.parent? id := by
  rw [parent?, get?_addScope, parent?]
  split
  · rfl
  · split
    · cases tree.get? id <;> rfl
    · rfl

theorem children_addScope : (tree.addScope p h name kind owner).children id =
    if id = tree.size then []
    else if id = p then tree.children id ++ [tree.size] else tree.children id := by
  rw [children_eq, get?_addScope, children_eq]
  split
  · rfl
  · split
    · rename_i hid
      obtain ⟨scope, hget⟩ := exists_get?_of_lt (hid ▸ h)
      rw [hget]
      rfl
    · rfl

end Adding

/-- Every scope but the root is a child of its parent and of no other scope, and children are listed
by their numbers. -/
structure Linked (tree : ScopeTree) : Prop where
  size_pos : 0 < tree.size
  parent?_eq_none_iff : ∀ {id}, id < tree.size → (tree.parent? id = none ↔ id = root)
  mem_children_iff : ∀ {p c}, c ∈ tree.children p ↔ tree.parent? c = some p
  children_increasing : ∀ p, (tree.children p).Pairwise (· < ·)

theorem linked_rootOnly : Linked rootOnly where
  size_pos := by decide
  parent?_eq_none_iff := by
    intro id hid
    obtain rfl : id = 0 := Nat.lt_one_iff.mp hid
    decide
  mem_children_iff := by
    intro p c
    have hchildren : rootOnly.children p = [] := by
      cases p <;> rfl
    have hparent : rootOnly.parent? c = none := by
      cases c <;> rfl
    simp [hchildren, hparent]
  children_increasing := by
    intro p
    cases p <;> exact .nil

theorem Linked.lt_of_mem_children (hlinked : tree.Linked) (h : c ∈ tree.children p) :
    p < c ∧ c < tree.size :=
  have hparent := hlinked.mem_children_iff.mp h
  ⟨parent?_lt hparent, lt_size_of_parent? hparent⟩

theorem Linked.children_eq_nil (hlinked : tree.Linked) (h : tree.size ≤ p) :
    tree.children p = [] := by
  refine List.eq_nil_iff_forall_not_mem.mpr fun c hc => ?_
  obtain ⟨hlt, hsize⟩ := hlinked.lt_of_mem_children hc
  exact Nat.not_le_of_lt (Nat.lt_trans hlt hsize) h

theorem Linked.declare (hlinked : tree.Linked) (d : Declaration) :
    (tree.modify p (·.declare d) fun s => s.parent_declare d).Linked where
  size_pos := by
    rw [size_modify]
    exact hlinked.size_pos
  parent?_eq_none_iff := by
    intro id hid
    rw [size_modify] at hid
    rw [parent?_declare]
    exact hlinked.parent?_eq_none_iff hid
  mem_children_iff := by
    intro q c
    rw [parent?_declare, children_declare]
    exact hlinked.mem_children_iff
  children_increasing := by
    intro q
    rw [children_declare]
    exact hlinked.children_increasing q

theorem Linked.addScope (hlinked : tree.Linked) (h : p < tree.size) (name : String)
    (kind : ScopeKind) (owner : Option String) : (tree.addScope p h name kind owner).Linked where
  size_pos := by
    rw [size_addScope]
    exact Nat.succ_pos _
  parent?_eq_none_iff := by
    intro id hid
    have hpos := hlinked.size_pos
    rw [size_addScope] at hid
    rw [parent?_addScope]
    split
    · rename_i hnew
      exact ⟨nofun, fun hroot => absurd (hnew.symm.trans hroot) (Nat.ne_of_gt hpos)⟩
    · rename_i hold
      exact hlinked.parent?_eq_none_iff (Nat.lt_of_le_of_ne (Nat.le_of_lt_succ hid) hold)
  mem_children_iff := by
    intro q c
    rw [parent?_addScope, children_addScope]
    have hold (hc : c ∈ tree.children q) : c ≠ tree.size :=
      Nat.ne_of_lt (hlinked.lt_of_mem_children hc).2
    by_cases hq : q = tree.size
    · have hne : p ≠ q := fun heq => Nat.ne_of_lt h (heq.trans hq)
      have hnone := hlinked.children_eq_nil (Nat.le_of_eq hq.symm)
      have hmem := hlinked.mem_children_iff (p := q) (c := c)
      rw [if_pos hq]
      by_cases hc : c = tree.size
      · simp [hc, hne]
      · rw [if_neg hc, ← hmem, hnone]
    · rw [if_neg hq]
      by_cases hc : c = tree.size
      · have hnot : c ∉ tree.children q := fun hmem => hold hmem hc
        subst hc
        by_cases hpq : q = p
        · simp [hpq]
        · simp [hpq, hnot, Ne.symm hpq]
      · rw [if_neg hc]
        by_cases hpq : q = p
        · rw [if_pos hpq, List.mem_append, hlinked.mem_children_iff, List.mem_singleton]
          simp [hc]
        · rw [if_neg hpq]
          exact hlinked.mem_children_iff
  children_increasing := by
    intro q
    rw [children_addScope]
    split
    · exact .nil
    · split
      · refine List.pairwise_append.mpr
          ⟨hlinked.children_increasing q, List.pairwise_singleton .., ?_⟩
        intro c hc new hnew
        rw [List.mem_singleton.mp hnew]
        exact (hlinked.lt_of_mem_children hc).2
      · exact hlinked.children_increasing q

/-! ## The chain to the root -/

theorem le_of_mem_ancestors {entry : ScopeId × Scope} (h : entry ∈ tree.ancestors id) :
    entry.1 ≤ id := by
  induction id using tree.ancestors_induction with
  | unknown id hget hchain => simp [hchain] at h
  | top id scope hget hparent hchain =>
    rw [hchain, List.mem_singleton] at h
    exact Nat.le_of_eq (congrArg Prod.fst h)
  | inner id scope p hget hparent hchain ih =>
    rw [hchain, List.mem_cons] at h
    rcases h with rfl | h
    · exact Nat.le_refl id
    · exact Nat.le_trans (ih h) (Nat.le_of_lt (tree.parent_lt hget hparent))

theorem pairwise_ancestors (tree : ScopeTree) (id : ScopeId) :
    ((tree.ancestors id).map Prod.fst).Pairwise (· > ·) := by
  induction id using tree.ancestors_induction with
  | unknown id hget hchain =>
    rw [hchain]
    exact .nil
  | top id scope hget hparent hchain =>
    rw [hchain]
    exact List.pairwise_singleton ..
  | inner id scope p hget hparent hchain ih =>
    rw [hchain, List.map_cons]
    refine .cons (fun outer houter => ?_) ih
    obtain ⟨entry, hentry, rfl⟩ := List.mem_map.mp houter
    exact Nat.lt_of_le_of_lt (le_of_mem_ancestors hentry) (tree.parent_lt hget hparent)

theorem head?_ancestors (h : id < tree.size) :
    ((tree.ancestors id).map Prod.fst).head? = some id := by
  induction id using tree.ancestors_induction with
  | unknown id hget hchain => exact absurd (get?_eq_none_iff.mp hget) (Nat.not_le_of_lt h)
  | top id scope hget hparent hchain => rw [hchain]; rfl
  | inner id scope p hget hparent hchain ih => rw [hchain]; rfl

theorem Linked.getLast?_ancestors (hlinked : tree.Linked) (h : id < tree.size) :
    ((tree.ancestors id).map Prod.fst).getLast? = some root := by
  induction id using tree.ancestors_induction with
  | unknown id hget hchain => exact absurd (get?_eq_none_iff.mp hget) (Nat.not_le_of_lt h)
  | top id scope hget hparent hchain =>
    have hroot : id = root := by
      rw [← hlinked.parent?_eq_none_iff h, parent?, hget]
      exact hparent
    rw [hchain, hroot]
    rfl
  | inner id scope p hget hparent hchain ih =>
    have hlast := ih (Nat.lt_trans (tree.parent_lt hget hparent) h)
    rw [hchain, List.map_cons, List.getLast?_cons, hlast]
    rfl

/-! ## Declarations -/

end ScopeTree

/-- Each declaration is the one that is found under its name. -/
def Scope.Tabled (scope : Scope) : Prop :=
  ∀ d ∈ scope.declarations, scope.find? d.kind.nameType d.name = some d

theorem Declaration.answers_self (d : Declaration) : d.answers d.kind.nameType d.name = true := by
  simp [answers]

theorem Declaration.answers_iff {d : Declaration} {kind : NameType} {name : String} :
    d.answers kind name = true ↔ d.kind.nameType = kind ∧ d.name = name := by
  simp [answers]

theorem Scope.Tabled.declare {scope : Scope} (h : scope.Tabled) (d : Declaration) :
    (scope.declare d).Tabled := by
  intro e he
  rw [find?_declare]
  rcases List.mem_cons.mp he with rfl | he
  · rw [if_pos e.answers_self]
  · obtain ⟨hmem, hother⟩ := List.mem_filter.mp he
    have hanswers : ¬ d.answers e.kind.nameType e.name = true := by
      intro hsame
      obtain ⟨hkind, hname⟩ := Declaration.answers_iff.mp hsame
      rw [Bool.not_eq_true', hkind, hname, e.answers_self] at hother
      cases hother
    rw [if_neg hanswers]
    exact h e hmem

namespace ScopeTree.Builder

/-- Every scope of a tree has its declarations in tables. -/
def Tabled (b : Builder) : Prop := ∀ id scope, b.tree.get? id = some scope → scope.Tabled

variable {b : Builder}

@[simp] theorem size_push (name : String) (kind : ScopeKind) (owner : Option String) :
    (b.push name kind owner).tree.size = b.tree.size + 1 :=
  size_addScope b.tree b.current b.current_lt name kind owner

@[simp] theorem size_declare (d : Declaration) : (b.declare d).tree.size = b.tree.size :=
  size_modify b.tree b.current (·.declare d) fun s => s.parent_declare d

theorem tabled_start : start.Tabled := by
  intro id scope hget
  match id with
  | 0 =>
    obtain rfl : Scope.fresh "<root>" .root none none = scope := Option.some.inj hget
    exact fun d hd => nomatch hd
  | id + 1 => cases hget

theorem Tabled.push (h : b.Tabled) (name : String) (kind : ScopeKind) (owner : Option String) :
    (b.push name kind owner).Tabled := by
  intro id scope hget
  rw [Builder.push, get?_addScope] at hget
  split at hget
  · obtain rfl := Option.some.inj hget
    exact fun d hd => nomatch hd
  · split at hget
    · obtain ⟨old, hold, rfl⟩ := Option.map_eq_some_iff.mp hget
      exact h id old hold
    · exact h id scope hget

theorem Tabled.declare (h : b.Tabled) (d : Declaration) : (b.declare d).Tabled := by
  intro id scope hget
  rw [Builder.declare, get?_modify] at hget
  split at hget
  · obtain ⟨old, hold, rfl⟩ := Option.map_eq_some_iff.mp hget
    exact (h id old hold).declare d
  · exact h id scope hget

theorem Tabled.run (h : b.Tabled) (steps : List BuildStep) : (b.run steps).Tabled :=
  run_induction (P := Tabled) (fun _ name kind owner h => h.push name kind owner) (fun _ h => h)
    (fun _ d h => h.declare d) h steps

end ScopeTree.Builder

/-! ## The order of entering -/

namespace ScopeTree

/-- The scopes of a tree in the order of their numbers, by what they were entered with. -/
def Lists (tree : ScopeTree) (headings : List (String × ScopeKind × Option String)) : Prop :=
  ∀ id, (tree.get? id).map Scope.heading = headings[id]?

variable {tree : ScopeTree} {p : ScopeId} {headings : List (String × ScopeKind × Option String)}

theorem Lists.length_eq (h : tree.Lists headings) : headings.length = tree.size := by
  have hiff (id : Nat) : headings.length ≤ id ↔ tree.size ≤ id := by
    rw [← List.getElem?_eq_none_iff, ← h id, Option.map_eq_none_iff, get?_eq_none_iff]
  exact Nat.le_antisymm ((hiff _).mpr (Nat.le_refl _)) ((hiff _).mp (Nat.le_refl _))

theorem Lists.addScope (h : tree.Lists headings) (hp : p < tree.size) (name : String)
    (kind : ScopeKind) (owner : Option String) :
    (tree.addScope p hp name kind owner).Lists (headings ++ [(name, kind, owner)]) := by
  intro id
  rw [get?_addScope, List.getElem?_append, h.length_eq]
  by_cases hnew : id = tree.size
  · rw [if_pos hnew, if_neg (Nat.not_lt_of_le (Nat.le_of_eq hnew.symm)), hnew, Nat.sub_self]
    rfl
  · rw [if_neg hnew]
    have hold : (if id = p then (tree.get? id).map (·.addChild tree.size) else tree.get? id).map
        Scope.heading = headings[id]? := by
      rw [← h id]
      split
      · rw [Option.map_map]
        rfl
      · rfl
    rw [hold]
    split
    · rfl
    · rename_i hle
      have hlt : tree.size < id := Nat.lt_of_le_of_ne (Nat.le_of_not_lt hle) (Ne.symm hnew)
      rw [List.getElem?_eq_none (h.length_eq ▸ Nat.le_of_lt hlt),
        List.getElem?_eq_none (Nat.succ_le_of_lt (Nat.sub_pos_of_lt hlt))]

theorem Lists.declare (h : tree.Lists headings) (d : Declaration) :
    (tree.modify p (·.declare d) fun s => s.parent_declare d).Lists headings := by
  intro id
  rw [get?_modify, ← h id]
  split
  · rw [Option.map_map]
    rfl
  · rfl

theorem Lists.step {b : Builder} (h : b.tree.Lists headings) (step : BuildStep) :
    (b.step step).tree.Lists (headings ++ step.heading?.toList) := by
  rcases b.step_cases step with ⟨name, kind, owner, hheading, -, hstep⟩ | ⟨hheading, hstep⟩
  · rw [hheading, hstep]
    exact h.addScope b.current_lt name kind owner
  · rw [hheading, Option.toList_none, List.append_nil]
    rcases hstep with ⟨-, hstep⟩ | ⟨d, -, hstep⟩ <;> rw [hstep]
    · exact h
    · exact h.declare d

/-- Scopes are numbered in the order in which they are entered. -/
theorem Lists.run {b : Builder} (h : b.tree.Lists headings) (steps : List BuildStep) :
    (b.run steps).tree.Lists (headings ++ steps.filterMap BuildStep.heading?) := by
  induction steps generalizing b headings with
  | nil =>
    rw [List.filterMap_nil, List.append_nil]
    exact h
  | cons step steps ih =>
    have hrest := ih (h.step step)
    rw [List.append_assoc] at hrest
    have hfilter : (step :: steps).filterMap BuildStep.heading? =
        step.heading?.toList ++ steps.filterMap BuildStep.heading? := by
      rw [List.filterMap_cons]
      cases step.heading? <;> rfl
    rw [hfilter]
    exact hrest

/-! ## What has been declared -/

/-- The declarations that steps add to the scope `id`, the last one first. -/
def Builder.declaredIn (id : ScopeId) : Builder → List BuildStep → List Declaration
  | _, [] => []
  | b, step :: steps =>
    declaredIn id (b.step step) steps ++
      if id = b.current then (step.declaration? b).toList else []

/-- Each table of a scope has the first declaration of the scope's list for every name. -/
def Records (tree : ScopeTree) (declared : ScopeId → List Declaration) : Prop :=
  ∀ id kind name, ((tree.get? id).bind (·.find? kind name)) =
    (declared id).find? (·.answers kind name)

variable {declared : ScopeId → List Declaration}

theorem records_rootOnly : rootOnly.Records fun _ => [] := by
  intro id kind name
  cases id <;> rfl

theorem Records.addScope (h : tree.Records declared) (hp : p < tree.size) (name : String)
    (kind : ScopeKind) (owner : Option String) :
    (tree.addScope p hp name kind owner).Records declared := by
  intro id table key
  rw [← h id table key, get?_addScope]
  split
  · rename_i hnew
    rw [hnew, get?_eq_none_iff.mpr (Nat.le_refl _)]
    rfl
  · split
    · rw [Option.bind_map]
      rfl
    · rfl

theorem Records.declare {b : Builder} (h : b.tree.Records declared) (d : Declaration) :
    (b.declare d).tree.Records fun id =>
      (if id = b.current then [d] else []) ++ declared id := by
  intro id table key
  have hold := h id table key
  rw [Builder.declare, get?_modify]
  by_cases hid : id = b.current
  · obtain ⟨scope, hget⟩ := exists_get?_of_lt (hid ▸ b.current_lt)
    rw [hget, Option.bind_some] at hold
    rw [if_pos hid, hget, Option.map_some, Option.bind_some, Scope.find?_declare, hold]
    simp only [if_pos hid, List.singleton_append, List.find?_cons]
    cases d.answers table key <;> rfl
  · rw [if_neg hid, hold]
    simp only [if_neg hid, List.nil_append]

theorem Records.step {b : Builder} (h : b.tree.Records declared) (step : BuildStep) :
    (b.step step).tree.Records fun id =>
      (if id = b.current then (step.declaration? b).toList else []) ++ declared id := by
  rcases b.step_cases step with
    ⟨name, kind, owner, -, hnone, hstep⟩ | ⟨-, ⟨hnone, hstep⟩ | ⟨d, hsome, hstep⟩⟩
  · simp only [hnone, hstep, Option.toList_none, ite_self, List.nil_append]
    exact h.addScope b.current_lt name kind owner
  · simp only [hnone, hstep, Option.toList_none, ite_self, List.nil_append]
    exact h
  · rw [hsome, hstep]
    exact h.declare d

/-- The last declaration of a name in a scope is what is found there under the name. -/
theorem Records.run {b : Builder} (h : b.tree.Records declared) (steps : List BuildStep) :
    (b.run steps).tree.Records fun id => b.declaredIn id steps ++ declared id := by
  induction steps generalizing b declared with
  | nil => exact h
  | cons step steps ih =>
    have hrest := ih (h.step step)
    simp only [← List.append_assoc] at hrest
    exact hrest

end ScopeTree

end NameResolution
