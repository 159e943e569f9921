import NameResolution.Proofs.Findings
import NameResolution.Proofs.ParallelWalks

/-!
# Positions are labels

Nothing that a file resolves to depends on where its nodes start, except that two names of one table
at one position are an error. So when the starts are replaced, one by one and without making two of
them equal, the outcome is the same with the positions replaced (`resolveFile_relabelled`); when the
replacement makes starts equal, the file may only be stopped for that.

A table is compared through its entries by place in the file, `NameTable.ListsAt`.
-/

namespace NameResolution

/-- The same error at another position. -/
def ResolveError.withPosition (position : SourcePosition) : ResolveError → ResolveError
  | outerInstance _ name access => outerInstance position name access
  | forbiddenName _ name => forbiddenName position name
  | scopeMismatch _ scope children => scopeMismatch position scope children
  | repeatedPosition _ existing name => repeatedPosition position existing name

/-- The entries of the table are these, each at the place of `file` where `g` puts it. -/
def NameTable.ListsAt {kind : NameType} (file : FileId) (g : LineCol → LineCol)
    (table : NameTable kind) (entries : List (LineCol × QualifiedName kind)) : Prop :=
  table.entries = entries.map fun entry => (⟨file, g entry.1⟩, entry.2)

section Labels

variable (file file' : FileId) (g : LineCol → LineCol)

/-- An error at a place of `file`, and the same error where `g` puts the place in `file'`. -/
def ResolveError.Relabelled (e e' : ResolveError) : Prop :=
  ∃ start, e.position = ⟨file, start⟩ ∧ e' = e.withPosition ⟨file', g start⟩

/-- Names at places of `file`, and the same names in the same order where `g` puts the places in
`file'`. -/
def NameTable.Relabelled {kind : NameType} (table table' : NameTable kind) : Prop :=
  ∃ entries, table.ListsAt file id entries ∧ table'.ListsAt file' g entries

/-- Both tables are the same but for the positions. -/
structure Resolution.Relabelled (r r' : Resolution) : Prop where
  methods : r.methods.Relabelled file file' g r'.methods
  identifiers : r.identifiers.Relabelled file file' g r'.identifiers

end Labels

/-! ## Recording at other places -/

namespace NameTable

variable {kind : NameType} {file file' : FileId} {g : LineCol → LineCol}
  {table table' : NameTable kind} {entries : List (LineCol × QualifiedName kind)}

/-- As long as `g` keeps places apart, a place is found where `g` puts it. -/
theorem ListsAt.find?_eq (h : table.ListsAt file g entries) (hg : Function.Injective g)
    (start : LineCol) : table.find? ⟨file, g start⟩ = entries.lookup start := by
  rw [OrderedMap.find?, h]
  clear h
  induction entries with
  | nil => rfl
  | cons entry entries ih =>
    rw [List.map_cons, OrderedMap.lookup_cons_eq_ite, OrderedMap.lookup_cons_eq_ite, ih]
    simp only [SourcePosition.mk.injEq, true_and, hg.eq_iff]

/-- A place that is listed is found where `g` puts it, if not always with its own name. -/
theorem ListsAt.find?_ne_none (h : table.ListsAt file g entries) {start : LineCol}
    (hstart : entries.lookup start ≠ none) : table.find? ⟨file, g start⟩ ≠ none := by
  rw [Ne, OrderedMap.find?_eq_none_iff, OrderedMap.keys, h, List.map_map, not_not]
  obtain ⟨name, hname⟩ := Option.ne_none_iff_exists'.mp hstart
  obtain ⟨before, after, rfl, -⟩ := List.lookup_eq_some_iff.mp hname
  exact List.mem_map.mpr ⟨(start, name), by simp, rfl⟩

theorem ListsAt.insert (h : table.ListsAt file g entries) {start : LineCol}
    (hnew : table.find? ⟨file, g start⟩ = none) (name : QualifiedName kind) :
    ListsAt file g (table.insert ⟨file, g start⟩ name) (entries ++ [(start, name)]) := by
  have hkeys := (table.find?_eq_none_iff _).mp hnew
  rw [ListsAt, table.entries_insert_of_not_mem _ name hkeys, h, List.map_append]
  rfl

end NameTable

/-- Errors match when they are the same at replaced positions; if `g` makes places equal, the walk
over the replaced starts may stop because of that. -/
def labelMatch (file file' : FileId) (g : LineCol → LineCol) : ErrorMatch where
  pairs := ResolveError.Relabelled file file' g
  stopsFirst _ := False
  stopsSecond e := ¬ Function.Injective g ∧
    ∃ position existing name, e = .repeatedPosition position existing name

section Record

variable {file file' : FileId} {g : LineCol → LineCol}

theorem NameTable.Relabelled.record {kind : NameType} {table table' : NameTable kind}
    (h : table.Relabelled file file' g table') (start : LineCol) (name : QualifiedName kind) :
    (labelMatch file file' g).InStep (NameTable.Relabelled file file' g)
      (table.record ⟨file, start⟩ name) (table'.record ⟨file', g start⟩ name) := by
  obtain ⟨entries, hlists, hlists'⟩ := h
  have hfind : table.find? ⟨file, start⟩ = entries.lookup start :=
    hlists.find?_eq Function.injective_id start
  cases hfind' : table'.find? ⟨file', g start⟩ with
  | none =>
    -- nothing is listed at the place, so both tables take the name
    have hnone : table.find? ⟨file, start⟩ = none := by
      rw [hfind]
      exact Classical.byContradiction fun hne => hlists'.find?_ne_none hne hfind'
    rw [record_of_find?_eq_none name hnone, record_of_find?_eq_none name hfind']
    exact .ok ⟨_, hlists.insert hnone name, hlists'.insert hfind' name⟩
  | some existing =>
    rw [record_of_find?_eq_some name hfind']
    by_cases hg : Function.Injective g
    · have hsome : table.find? ⟨file, start⟩ = some existing := by
        rw [hfind, ← hlists'.find?_eq hg start, hfind']
      rw [record_of_find?_eq_some name hsome]
      exact .error ⟨start, rfl, rfl⟩
    · exact .inr (.inr ⟨_, rfl, hg, _, _, _, rfl⟩)

theorem Resolution.Relabelled.record {r r' : Resolution} (h : r.Relabelled file file' g r')
    (start : LineCol) (occurrence : Occurrence) :
    (labelMatch file file' g).InStep (Resolution.Relabelled file file' g)
      (r.record ⟨file, start⟩ occurrence) (r'.record ⟨file', g start⟩ occurrence) := by
  cases occurrence with
  | method name =>
    exact (h.methods.record start name).map fun table table' ht => ⟨ht, h.identifiers⟩
  | identifier name =>
    exact (h.identifiers.record start name).map fun table table' ht => ⟨h.methods, ht⟩

theorem Resolution.relabelled_empty : Resolution.empty.Relabelled file file' g .empty :=
  ⟨⟨[], rfl, rfl⟩, ⟨[], rfl, rfl⟩⟩

end Record

/-! ## The outcome at other places -/

/-- The walk of a file, and the walk of the same tree with its starts replaced. -/
def relabelledWalks (file file' : FileId) (g : LineCol → LineCol) (scopes : ScopeTree)
    (policy : Policy) :
    Parallel (labelMatch file file' g) ⟨file, scopes, policy⟩ ⟨file', scopes, policy⟩ g where
  scopes := Eq
  found := Resolution.Relabelled file file' g
  policy_eq := rfl
  outerInstance := fun start _ _ => ⟨start, rfl, rfl⟩
  forbiddenName := fun start _ => ⟨start, rfl, rfl⟩
  answers := by
    rintro s _ rfl
    exact .refl scopes s
  childAt := by
    rintro s _ rfl start index
    rw [Context.childAt, Context.childAt]
    cases (scopes.children s)[index]? with
    | some child => exact .ok rfl
    | none => exact .error ⟨start, rfl, rfl⟩
  record := fun h start occurrence => h.record start occurrence

/-- The outcomes are the same but for the positions. -/
def SameButLabels (file file' : FileId) (g : LineCol → LineCol) :
    Except ResolveError Resolution → Except ResolveError Resolution → Prop :=
  Agree (ResolveError.Relabelled file file' g) (Resolution.Relabelled file file' g)

/-- **Positions are labels.** Replaced starts, in another file, change nothing but the positions of
the outcome, if no two starts become equal; otherwise the one other thing that can happen is that a
position comes twice. -/
theorem resolveFile_relabelled (file file' : FileId) (root : Node) (scopes : ScopeTree)
    (policy : Policy) (g : LineCol → LineCol) :
    let before := resolveFile file root scopes policy
    let after := resolveFile file' (root.mapStart g) scopes policy
    (Function.Injective g → SameButLabels file file' g before after) ∧
      (SameButLabels file file' g before after ∨
        ∃ position existing name, after = .error (.repeatedPosition position existing name)) := by
  intro before after
  have hstep : (labelMatch file file' g).InStep (Resolution.Relabelled file file' g) before after :=
    (relabelledWalks file file' g scopes policy).resolveFile rfl Resolution.relabelled_empty root
  rcases hstep with hagree | ⟨e, -, hstop⟩ | ⟨e, herror, hg, position, existing, name, rfl⟩
  · exact ⟨fun _ => hagree, .inl hagree⟩
  · exact hstop.elim
  · exact ⟨fun hinj => absurd hinj hg, .inr ⟨position, existing, name, herror⟩⟩

/-- A method that uses its parameter twice. -/
def twoUses : Node :=
  .compilationUnit
    [.methodDecl ⟨1, 0⟩ "twice" [.simpleName ⟨1, 10⟩ "x", .simpleName ⟨1, 14⟩ "x"]]

def twoUsesScopes : ScopeTree :=
  .build [.enter .compilationUnit "unit", .enter .callable "twice", .declareVariable "x"]

/-- Lines for columns, below ten new lines. -/
def turned (p : LineCol) : LineCol := ⟨p.col + 10, p.line⟩

theorem relabelled_twoUses :
    Function.Injective turned ∧
      SameButLabels ⟨0⟩ ⟨7⟩ turned (resolveFile ⟨0⟩ twoUses twoUsesScopes .default)
        (resolveFile ⟨7⟩ (twoUses.mapStart turned) twoUsesScopes .default) ∧
      (resolveFile ⟨7⟩ (twoUses.mapStart turned) twoUsesScopes .default).map
          (·.identifiers.entries) =
        .ok [(⟨⟨7⟩, ⟨20, 1⟩⟩, ⟨"x", .scope "twice"⟩), (⟨⟨7⟩, ⟨24, 1⟩⟩, ⟨"x", .scope "twice"⟩)] ∧
      ∃ position existing name, resolveFile ⟨7⟩ (twoUses.mapStart fun _ => .origin) twoUsesScopes
        .default = .error (.repeatedPosition position existing name) := by
  have hturned : Function.Injective turned := by
    intro p q h
    cases p
    cases q
    simp only [turned, LineCol.mk.injEq] at h ⊢
    omega
  have hsame := (resolveFile_relabelled ⟨0⟩ ⟨7⟩ twoUses twoUsesScopes .default turned).1 hturned
  have htwice : resolveFile ⟨7⟩ (twoUses.mapStart fun _ => .origin) twoUsesScopes .default =
      .error (.repeatedPosition ⟨⟨7⟩, .origin⟩ "x" "x") :=
    (map_eq_error_iff (f := fun _ => ())).mp (by decide +kernel)
  exact ⟨hturned, hsame, by decide +kernel, _, _, _, htwice⟩

end NameResolution
