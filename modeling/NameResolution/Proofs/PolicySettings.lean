import NameResolution.Proofs.PolicyRoundTrip
import NameResolution.Proofs.PolicySteps

/-!
# Settings that are read and settings that are built

The same settings can be written down and read, or passed on step by step. Steps take the final dots
off a namespace and leave out what is empty then; reading keeps every namespace as it is written.
Whether the two policies accept the same names can be told from the settings alone (`Covers`,
`readsAsBuilt_iff_covers`): each namespace that is written has to be accepted by what is built, what
is left of it when it is trimmed has to lie in some namespace that is written, and the classes have
to be accepted both ways. Settings that are written without final dots and empty namespaces are
covered (`covers_of_trimmed`).

Names that are longer than anything that is listed decide about the namespaces, since a policy
accepts such a name for the sake of a namespace around it only (`accepts_append_iff`).
-/

namespace NameResolution.Policy

/-! ## Long names -/

theorem ne_this_of_append (start rest : String) : start ++ "." ++ rest ≠ "this" := by
  intro heq
  have hdot : '.' ∈ "this".toList := by
    rw [← heq]
    simp
  exact absurd hdot (by decide)

/-- The names that a policy lists: the allowed classes and the namespaces. -/
def listedNames (p : Policy) : List String :=
  p.baseClasses.toList.map (fun cls => p.baseNamespace ++ "." ++ cls) ++ p.namespaces

/-- **Below a name, something long is accepted if the name lies in a namespace.** -/
theorem accepts_append_iff {p : Policy} {text : String} (hdot : '.' ∉ text.toList)
    (hlong : ∀ name ∈ p.listedNames, name.length < text.length) (start : String) :
    p.accepts (start ++ "." ++ text) = true ↔
      ∃ ns ∈ p.namespaces, Dotted.segments ns <+: Dotted.segments start := by
  have hsegments : Dotted.segments (start ++ "." ++ text) = Dotted.segments start ++ [text] := by
    rw [Dotted.segments_append, Dotted.segments_of_notMem hdot]
  rw [accepts_iff, acceptsBaseClass_iff]
  simp only [isWithin_iff, hsegments, List.prefix_concat_iff]
  constructor
  · rintro (hthis | ⟨cls, hcls, -, heq⟩ | ⟨ns, hns, heq | hstart, -⟩)
    · exact absurd hthis (ne_this_of_append start text)
    · have hlt := hlong _ (List.mem_append_left _ (List.mem_map_of_mem hcls))
      rw [← heq] at hlt
      simp only [String.length_append] at hlt
      omega
    · have hlt := hlong ns (List.mem_append_right _ hns)
      rw [Dotted.segments_inj.mp (heq.trans hsegments.symm)] at hlt
      simp only [String.length_append] at hlt
      omega
    · exact ⟨ns, hns, hstart⟩
  · rintro ⟨ns, hns, hstart⟩
    refine .inr (.inr ⟨ns, hns, .inr hstart, fun heq => ?_⟩)
    have hlt := hlong ns (List.mem_append_right _ hns)
    have hlength := congrArg String.length heq
    have hone : ".".length = 1 := rfl
    simp only [String.length_append] at hlength
    omega

theorem exists_longer (names : List String) :
    ∃ text : String, '.' ∉ text.toList ∧ ∀ name ∈ names, name.length < text.length := by
  induction names with
  | nil => exact ⟨"", by simp, by simp⟩
  | cons name names ih =>
    obtain ⟨text, hdot, hlong⟩ := ih
    refine ⟨String.ofList (List.replicate (name.length + text.length + 1) 'x'), by simp, ?_⟩
    simp only [String.length_ofList, List.length_replicate]
    refine List.forall_mem_cons.mpr ⟨by omega, fun other hother => ?_⟩
    have hlt := hlong other hother
    omega

/-! ## Namespaces around namespaces -/

/-- What is in a namespace is in a namespace around it, the namespace itself apart. -/
theorem isWithin_of_prefix {name ns outer : String} (h : isWithin name ns = true) (hne : name ≠ ns)
    (houter : Dotted.segments outer <+: Dotted.segments ns) : isWithin name outer = true := by
  refine isWithin_iff.mpr ⟨houter.trans (isWithin_iff.mp h).1, fun heq => ?_⟩
  obtain ⟨rest, hrest, rfl⟩ := (isWithin_iff_eq_or_append.mp h).resolve_left hne
  have hle := Dotted.length_le_of_segments_prefix houter
  have hpos : 0 < rest.length := Nat.pos_of_ne_zero (mt String.length_eq_zero_iff.mp hrest)
  have hlength := congrArg String.length heq
  simp only [String.length_append] at hlength
  omega

/-- A trimmed namespace is itself in those around it, since it does not end with a dot. -/
theorem isWithin_of_trimmed_prefix {name ns outer : String}
    (h : isWithin name (Dotted.trimDots ns) = true)
    (houter : Dotted.segments outer <+: Dotted.segments (Dotted.trimDots ns)) :
    isWithin name outer = true := by
  by_cases hname : name = Dotted.trimDots ns
  · rw [hname]
    exact isWithin_iff.mpr ⟨houter, Dotted.trimDots_ne_append ns outer⟩
  · exact isWithin_of_prefix h hname houter

/-! ## Reading and building -/

/-- The written form of settings, as they are given. -/
def settingsJson (base : String) (classes namespaces : List String) : String :=
  String.ofList (Json.writeObject (members base classes namespaces))

/-- The steps that pass the settings on. -/
def settingSteps (base : String) (classes namespaces : List String) : List PolicyStep :=
  [.baseNamespace base, .allowBaseClasses classes, .allowNamespaces namespaces]

/-- The policy that is read of settings. -/
def ofSettings (base : String) (classes namespaces : List String) : Policy :=
  ⟨base, .ofList classes, namespaces⟩

variable (base : String) (classes namespaces : List String)

theorem ofJson_settingsJson :
    ofJson (settingsJson base classes namespaces) = .ok (ofSettings base classes namespaces) :=
  (reads_members base classes namespaces).readAll

theorem build_settingSteps :
    build (settingSteps base classes namespaces) =
      ⟨Dotted.trimDots base, .ofList classes, (trimmed namespaces).eraseDups⟩ := by
  have hbases : baseNamespaces (settingSteps base classes namespaces) = [base] := rfl
  rw [build_eq, hbases]
  simp [settingSteps, PolicyStep.classes, PolicyStep.namespaces]

/-- **What is built accepts what is read of the trimmed settings.** -/
theorem accepts_build_settingSteps (name : String) :
    (build (settingSteps base classes namespaces)).accepts name =
      (ofSettings (Dotted.trimDots base) classes (trimmed namespaces)).accepts name := by
  rw [build_settingSteps, Bool.eq_iff_iff]
  exact ⟨accepts_of_subset rfl (fun _ => id) fun _ => List.mem_eraseDups.mp,
    accepts_of_subset rfl (fun _ => id) fun _ => List.mem_eraseDups.mpr⟩

theorem accepts_ofSettings_iff {name : String} :
    (ofSettings base classes namespaces).accepts name = true ↔
      name = "this" ∨ (∃ cls ∈ classes, cls ≠ "" ∧ name = base ++ "." ++ cls) ∨
        ∃ ns ∈ namespaces, isWithin name ns = true := by
  rw [accepts_iff, acceptsBaseClass_iff]
  simp only [ofSettings, OrderedSet.mem_ofList]

/-! ## When both accept the same names -/

/-- What settings list is covered both as they are written and as they are trimmed. -/
structure Covers : Prop where
  /-- There is more to a namespace than dots. -/
  trimmed_ne : ∀ ns ∈ namespaces, Dotted.trimDots ns ≠ ""
  /-- A namespace is accepted, as it is written, by what is built. -/
  builds_namespace : ∀ ns ∈ namespaces,
    (build (settingSteps base classes namespaces)).accepts ns = true
  /-- A trimmed namespace lies in one that is written. -/
  lies_in : ∀ ns ∈ namespaces, ∃ outer ∈ namespaces,
    Dotted.segments outer <+: Dotted.segments (Dotted.trimDots ns)
  /-- A class below the base namespace, as that is written, is accepted by what is built. -/
  builds_class : ∀ cls ∈ classes, cls ≠ "" →
    (build (settingSteps base classes namespaces)).accepts (base ++ "." ++ cls) = true
  /-- A class below the trimmed base namespace is accepted by what is read. -/
  reads_class : ∀ cls ∈ classes, cls ≠ "" →
    (ofSettings base classes namespaces).accepts (Dotted.trimDots base ++ "." ++ cls) = true

instance : Decidable (Covers base classes namespaces) :=
  decidable_of_iff
    ((∀ ns ∈ namespaces, Dotted.trimDots ns ≠ "" ∧
        (build (settingSteps base classes namespaces)).accepts ns = true ∧
        ∃ outer ∈ namespaces,
          Dotted.segments outer <+: Dotted.segments (Dotted.trimDots ns)) ∧
      ∀ cls ∈ classes, cls ≠ "" →
        (build (settingSteps base classes namespaces)).accepts (base ++ "." ++ cls) = true ∧
        (ofSettings base classes namespaces).accepts (Dotted.trimDots base ++ "." ++ cls) = true)
    ⟨fun h => ⟨fun ns hns => (h.1 ns hns).1, fun ns hns => (h.1 ns hns).2.1,
        fun ns hns => (h.1 ns hns).2.2, fun cls hcls hne => (h.2 cls hcls hne).1,
        fun cls hcls hne => (h.2 cls hcls hne).2⟩,
      fun h => ⟨fun ns hns => ⟨h.trimmed_ne ns hns, h.builds_namespace ns hns, h.lies_in ns hns⟩,
        fun cls hcls hne => ⟨h.builds_class cls hcls hne, h.reads_class cls hcls hne⟩⟩⟩

variable {base : String} {classes namespaces : List String}

theorem Covers.accepts_build (h : Covers base classes namespaces) {name : String}
    (hread : (ofSettings base classes namespaces).accepts name = true) :
    (build (settingSteps base classes namespaces)).accepts name = true := by
  rcases (accepts_ofSettings_iff base classes namespaces).mp hread with
    rfl | ⟨cls, hcls, hne, rfl⟩ | ⟨ns, hns, hwithin⟩
  · rw [accepts_iff]
    exact .inl rfl
  · exact h.builds_class cls hcls hne
  · by_cases hname : name = ns
    · rw [hname]
      exact h.builds_namespace ns hns
    · rw [accepts_build_settingSteps, accepts_ofSettings_iff]
      exact .inr (.inr ⟨_, mem_trimmed.mpr ⟨h.trimmed_ne ns hns, ns, hns, rfl⟩,
        isWithin_of_prefix hwithin hname (Dotted.segments_trimDots_prefix ns)⟩)

theorem Covers.accepts_ofSettings (h : Covers base classes namespaces) {name : String}
    (hbuild : (build (settingSteps base classes namespaces)).accepts name = true) :
    (ofSettings base classes namespaces).accepts name = true := by
  rw [accepts_build_settingSteps, accepts_ofSettings_iff] at hbuild
  rcases hbuild with rfl | ⟨cls, hcls, hne, rfl⟩ | ⟨ns, hns, hwithin⟩
  · rw [accepts_iff]
    exact .inl rfl
  · exact h.reads_class cls hcls hne
  · obtain ⟨-, written, hwritten, rfl⟩ := mem_trimmed.mp hns
    obtain ⟨outer, houter, hstart⟩ := h.lies_in written hwritten
    rw [accepts_ofSettings_iff]
    exact .inr (.inr ⟨outer, houter, isWithin_of_trimmed_prefix hwithin hstart⟩)

/-- **Below a name, reading and building agree only where its segments are covered alike.** -/
theorem covered_iff_of_accepts_eq
    (h : ∀ name, (ofSettings base classes namespaces).accepts name =
      (build (settingSteps base classes namespaces)).accepts name) (start : String) :
    (∃ ns ∈ namespaces, Dotted.segments ns <+: Dotted.segments start) ↔
      ∃ ns ∈ trimmed namespaces, Dotted.segments ns <+: Dotted.segments start := by
  obtain ⟨text, hdot, hlong⟩ := exists_longer
    ((ofSettings base classes namespaces).listedNames ++
      (ofSettings (Dotted.trimDots base) classes (trimmed namespaces)).listedNames)
  have hread := accepts_append_iff hdot (List.forall_mem_append.mp hlong).1 start
  have hbuild := accepts_append_iff hdot (List.forall_mem_append.mp hlong).2 start
  rw [h, accepts_build_settingSteps] at hread
  exact hread.symm.trans hbuild

theorem covers_of_accepts_eq
    (h : ∀ name, (ofSettings base classes namespaces).accepts name =
      (build (settingSteps base classes namespaces)).accepts name) :
    Covers base classes namespaces := by
  have htrimmed : ∀ ns ∈ namespaces, Dotted.trimDots ns ≠ "" := by
    intro ns hns
    obtain ⟨_, htrim, hstart⟩ :=
      (covered_iff_of_accepts_eq h ns).mp ⟨ns, hns, List.prefix_refl _⟩
    obtain ⟨hne, written, -, rfl⟩ := mem_trimmed.mp htrim
    exact Dotted.trimDots_ne_empty_of_prefix hne hstart
  refine ⟨htrimmed, fun ns hns => ?_, fun ns hns => ?_, fun cls hcls hne => ?_,
    fun cls hcls hne => ?_⟩
  · rw [← h, accepts_ofSettings_iff]
    exact .inr (.inr ⟨ns, hns, isWithin_iff_eq_or_append.mpr (.inl rfl)⟩)
  · exact (covered_iff_of_accepts_eq h _).mpr
      ⟨_, mem_trimmed.mpr ⟨htrimmed ns hns, ns, hns, rfl⟩, List.prefix_refl _⟩
  · rw [← h, accepts_ofSettings_iff]
    exact .inr (.inl ⟨cls, hcls, hne, rfl⟩)
  · rw [h, accepts_build_settingSteps, accepts_ofSettings_iff]
    exact .inr (.inl ⟨cls, hcls, hne, rfl⟩)

/-- **Settings are always read, and what is read accepts the names that what is built accepts
exactly where the settings are covered.** -/
theorem readsAsBuilt_iff_covers (base : String) (classes namespaces : List String) :
    ∃ p, ofJson (settingsJson base classes namespaces) = .ok p ∧
      ((∀ name, p.accepts name = (build (settingSteps base classes namespaces)).accepts name) ↔
        Covers base classes namespaces) := by
  refine ⟨_, ofJson_settingsJson base classes namespaces, covers_of_accepts_eq, ?_⟩
  intro h name
  exact Bool.eq_iff_iff.mpr ⟨h.accepts_build, h.accepts_ofSettings⟩

-- the first namespace lies in the second one, with its dots and without them
example : Covers "java.lang" ["String"] ["org.example...", "org.example"] := by decide +kernel

/-- A namespace that ends with a dot is read with the dot and built without it. -/
theorem reads_finalDot :
    ∃ p, ofJson (settingsJson "java.lang" ["String"] ["org.example."]) = .ok p ∧
      p.accepts "org.example.Widget" = false ∧
      (build (settingSteps "java.lang" ["String"] ["org.example."])).accepts
        "org.example.Widget" = true :=
  ⟨_, ofJson_settingsJson _ _ _, by decide +kernel, by decide +kernel⟩

/-- Settings without final dots or empty namespaces are covered. -/
theorem covers_of_trimmed (hbase : Dotted.trimDots base = base)
    (hnamespaces : ∀ ns ∈ namespaces, ns ≠ "" ∧ Dotted.trimDots ns = ns) :
    Covers base classes namespaces := by
  have hsame : trimmed namespaces = namespaces := by
    have hmap : namespaces.map Dotted.trimDots = namespaces.map id :=
      List.map_congr_left fun ns hns => (hnamespaces ns hns).2
    rw [trimmed, hmap, List.map_id, List.filter_eq_self]
    exact fun ns hns => decide_eq_true (hnamespaces ns hns).1
  refine covers_of_accepts_eq fun name => ?_
  rw [accepts_build_settingSteps, hbase, hsame]

end NameResolution.Policy
