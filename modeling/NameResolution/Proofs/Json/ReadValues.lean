import NameResolution.Json.Shape

/-!
# What a reader may read

A property that every value of a reader has (`Yields`), whatever the text. A number has 32 bits
(`yields_word32`), and the values of a list, a pair or a record have the properties that the readers
of their parts give them.
-/

namespace NameResolution.Json

variable {α β σ : Type} {P : α → Prop} {Q : β → Prop}

/-- Every value that the reader reads has the property. -/
def Yields (P : α → Prop) (reader : Reader α) : Prop :=
  ∀ text a rest, reader text = .ok (a, rest) → P a

/-! ## Steps of a reader -/

theorem yields_pure {a : α} (h : P a) : Yields P (pure a) := by
  intro text b rest hread
  obtain ⟨rfl, -⟩ := Prod.mk.inj (Except.ok.inj hread)
  exact h

theorem yields_fail (P : α → Prop) (e : ReadError) : Yields P (Reader.fail e) := nofun

/-- A reader after another, with the property that the first value has. -/
theorem Yields.bind {reader : Reader α} {f : α → Reader β} (h : Yields P reader)
    (hf : ∀ a, P a → Yields Q (f a)) : Yields Q (reader >>= f) := by
  intro text b rest hread
  change Except.bind (reader text) _ = _ at hread
  cases hfirst : reader text with
  | error e =>
    rw [hfirst] at hread
    cases hread
  | ok r =>
    rw [hfirst] at hread
    exact hf r.1 (h text r.1 r.2 hfirst) r.2 b rest hread

/-- A reader after another, whatever the first value is. -/
theorem yields_bind {reader : Reader α} {f : α → Reader β} (hf : ∀ a, Yields Q (f a)) :
    Yields Q (reader >>= f) :=
  Yields.bind (P := fun _ => True) (fun _ _ _ _ => trivial) fun a _ => hf a

/-- A reader that looks at the next character, and refuses a text that has ended. -/
theorem yields_peekToken {f : Option Char → Reader α} (hnone : f none = Reader.fail .truncated)
    (hsome : ∀ c, Yields P (f (some c))) : Yields P (Reader.peekToken >>= f) := by
  refine yields_bind fun next => ?_
  cases next with
  | none =>
    rw [hnone]
    exact yields_fail P _
  | some c => exact hsome c

/-! ## Scalars -/

/-- What has another shape is never read. -/
theorem yields_wrongShape (P : α → Prop) : Yields P Reader.wrongShape := by
  have hfail := yields_fail P .mismatched
  refine yields_peekToken rfl fun c => ?_
  dsimp only
  split
  case h_4 => exact yields_bind fun _ => yields_bind fun _ => hfail
  case h_5 | h_6 => exact hfail
  case h_7 => split <;> exact yields_bind fun _ => hfail
  all_goals exact yields_bind fun _ => hfail

theorem yields_word32 : Yields (· < Nat.pow 2 32) Reader.word32 := by
  refine yields_peekToken rfl fun c => ?_
  dsimp only
  split
  · refine yields_bind fun numeral => ?_
    cases numeral with
    | natural n =>
      dsimp only
      split
      case isTrue h => exact yields_pure h
      case isFalse => exact yields_fail _ _
    | other => exact yields_fail _ _
  · exact yields_wrongShape _

/-! ## Lists -/

theorem yields_items {item : Reader α} (h : Yields P item) (steps : Nat) (first : Bool) :
    Yields (fun l => ∀ a ∈ l, P a) (Reader.items item steps first) := by
  induction steps generalizing first with
  | zero => exact yields_fail _ _
  | succ steps ih =>
    refine yields_bind fun more => ?_
    cases more with
    | true =>
      refine h.bind fun a ha => (ih false).bind fun l hl => yields_pure ?_
      exact List.forall_mem_cons.mpr ⟨ha, hl⟩
    | false => exact yields_pure nofun

theorem yields_list {item : Reader α} (h : Yields P item) :
    Yields (fun l => ∀ a ∈ l, P a) (Reader.list item) := by
  refine yields_peekToken rfl fun c => ?_
  dsimp only
  split
  · refine yields_bind fun _ => ?_
    exact fun text => yields_items h (text.length + 1) true text
  · exact yields_wrongShape _

/-! ## Records -/

/-- A field that is read keeps what holds of the draft. -/
def Keeps (inv : σ → Prop) (field : Reader.Field σ) : Prop :=
  ∀ draft, inv draft → Yields inv (field.read draft)

section Drafts

variable {inv : σ → Prop} {fields : List (Reader.Field σ)}

theorem yields_positional (hfields : ∀ field ∈ fields, Keeps inv field) (first : Bool) {draft : σ}
    (hdraft : inv draft) : Yields inv (Reader.positional fields first draft) := by
  induction fields generalizing first draft with
  | nil => exact yields_bind fun _ => yields_pure hdraft
  | cons field fields ih =>
    obtain ⟨hfield, hfields⟩ := List.forall_mem_cons.mp hfields
    refine yields_bind fun more => ?_
    cases more with
    | true => exact (hfield draft hdraft).bind fun next hnext => ih hfields false hnext
    | false => exact yields_pure hdraft

theorem yields_members (hfields : ∀ field ∈ fields, Keeps inv field) (steps : Nat) (first : Bool)
    {draft : σ} (hdraft : inv draft) : Yields inv (Reader.members fields steps first draft) := by
  induction steps generalizing first draft with
  | zero => exact yields_fail _ _
  | succ steps ih =>
    refine yields_bind fun more => ?_
    cases more with
    | false => exact yields_pure hdraft
    | true =>
      refine yields_bind fun _ => yields_bind fun key => ?_
      dsimp only
      split
      case h_1 field hfind =>
        have hfield := hfields field (List.mem_of_find?_eq_some hfind)
        have hread : Yields inv (field.read draft >>= Reader.members fields steps false) :=
          (hfield draft hdraft).bind fun next hnext => ih false hnext
        split
        · exact yields_bind fun _ => yields_bind fun _ => hread
        · exact yields_bind fun _ => hread
      case h_2 => exact yields_bind fun _ => yields_bind fun _ => ih false hdraft

theorem yields_record (hfields : ∀ field ∈ fields, Keeps inv field) {draft : σ}
    (hdraft : inv draft) : Yields inv (Reader.record fields draft) := by
  refine yields_peekToken rfl fun c => ?_
  dsimp only
  split
  · exact yields_bind fun _ => yields_positional hfields true hdraft
  · split
    · refine yields_bind fun _ => ?_
      exact fun text => yields_members hfields (text.length + 1) true hdraft text
    · exact yields_wrongShape _

end Drafts

theorem yields_required {value : Option α} (h : ∀ a ∈ value, P a) :
    Yields P (Reader.required value) := by
  cases value with
  | none => exact yields_fail P _
  | some a => exact yields_pure (h a rfl)

section TwoValues

variable {first : Reader α} {second : Reader β}

/-- What has been read of two values has the properties. -/
def DraftOf (P : α → Prop) (Q : β → Prop) (draft : Option α × Option β) : Prop :=
  (∀ a ∈ draft.1, P a) ∧ ∀ b ∈ draft.2, Q b

theorem draftOf_none : DraftOf P Q (none, none) := ⟨nofun, nofun⟩

theorem keeps_twoFields (hfirst : Yields P first) (hsecond : Yields Q second)
    (key₁ key₂ : String) :
    ∀ field ∈ Reader.twoFields key₁ first key₂ second, Keeps (DraftOf P Q) field := by
  intro field hfield
  obtain rfl | rfl : field = _ ∨ field = _ := by
    simpa only [Reader.twoFields, List.mem_cons, List.not_mem_nil, or_false] using hfield
  · intro draft hdraft
    refine hfirst.bind fun a ha => yields_pure ⟨?_, hdraft.2⟩
    rintro a' ⟨⟩
    exact ha
  · intro draft hdraft
    refine hsecond.bind fun b hb => yields_pure ⟨hdraft.1, ?_⟩
    rintro b' ⟨⟩
    exact hb

/-- A draft of two values is a pair in the end. -/
theorem DraftOf.yields {draft : Option α × Option β} (h : DraftOf P Q draft) :
    Yields (fun p => P p.1 ∧ Q p.2)
      (do return (← Reader.required draft.1, ← Reader.required draft.2)) :=
  (yields_required h.1).bind fun _ ha => (yields_required h.2).bind fun _ hb => yields_pure ⟨ha, hb⟩

theorem yields_record₂ (hfirst : Yields P first) (hsecond : Yields Q second)
    (key₁ key₂ : String) :
    Yields (fun p => P p.1 ∧ Q p.2) (Reader.record₂ key₁ first key₂ second) :=
  (yields_record (keeps_twoFields hfirst hsecond key₁ key₂) draftOf_none).bind fun _ h => h.yields

theorem yields_pair (hfirst : Yields P first) (hsecond : Yields Q second) :
    Yields (fun p => P p.1 ∧ Q p.2) (Reader.pair first second) := by
  have hfields := keeps_twoFields hfirst hsecond "" ""
  refine yields_peekToken rfl fun c => ?_
  dsimp only
  split
  · refine yields_bind fun _ => ?_
    exact (yields_positional hfields true draftOf_none).bind fun _ h => h.yields
  · exact yields_wrongShape _

end TwoValues

end NameResolution.Json
