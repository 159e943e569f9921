import NameResolution.Json.Resolution
import NameResolution.Proofs.Json.ReadValues
import NameResolution.Proofs.Json.Shapes

/-!
# A written resolution is read back

Every part of the written form is read back by its own reader, so a resolution is too, if its
numbers fit into 32 bits (`Resolution.Fits`). What is read always fits, so a text that is accepted
can be read, written and read again.
-/

namespace NameResolution

open Json (Reads Yields)
open Json.Reader (advance_cons bind_of_ok peekToken_cons token_cons)

/-! ## Positions -/

/-- Line and column fit into 32 bits. -/
structure LineCol.Fits (p : LineCol) : Prop where
  line : p.line < Nat.pow 2 32
  col : p.col < Nat.pow 2 32

/-- The number of the file, line and column fit into 32 bits. -/
structure SourcePosition.Fits (p : SourcePosition) : Prop where
  file : p.file.index < Nat.pow 2 32
  start : p.start.Fits

instance : DecidablePred LineCol.Fits := fun p =>
  decidable_of_iff (p.line < Nat.pow 2 32 ∧ p.col < Nat.pow 2 32)
    ⟨fun h => ⟨h.1, h.2⟩, fun h => ⟨h.line, h.col⟩⟩

instance : DecidablePred SourcePosition.Fits := fun p =>
  decidable_of_iff (p.file.index < Nat.pow 2 32 ∧ p.start.Fits)
    ⟨fun h => ⟨h.1, h.2⟩, fun h => ⟨h.file, h.start⟩⟩

theorem LineCol.reads_writeJson {p : LineCol} (h : p.Fits) : Reads readJson p.writeJson p :=
  (Json.reads_record₂ (by decide) (Json.reads_writeNat h.line) (Json.reads_writeNat h.col)).bind
    fun _ => rfl

theorem LineCol.yields_readJson : Yields Fits readJson :=
  (Json.yields_record₂ Json.yields_word32 Json.yields_word32 "line" "col").bind
    fun _ h => Json.yields_pure ⟨h.1, h.2⟩

theorem SourcePosition.reads_writeJson {p : SourcePosition} (h : p.Fits) :
    Reads readJson p.writeJson p := by
  have hstart := LineCol.reads_writeJson h.start
  exact (Json.reads_record₂ (by decide) (Json.reads_writeNat h.file) hstart).bind fun _ => rfl

theorem SourcePosition.yields_readJson : Yields Fits readJson :=
  (Json.yields_record₂ Json.yields_word32 LineCol.yields_readJson "file" "start").bind
    fun _ h => Json.yields_pure ⟨h.1, h.2⟩

/-! ## Names -/

namespace Origin

/-- The text of a tag. -/
def Tag.text : Tag → String
  | .scope => "Scope"
  | .enclosing => "Enclosing"

theorem readTag_text (tag : Tag) (rest : List Char) :
    readTag (Json.writeString tag.text ++ rest) = .ok (tag, rest) := by
  rw [Json.writeString_eq_cons, List.cons_append, readTag, bind_of_ok (token_cons (by decide) _),
    bind_of_ok (Json.stringTail_writeString tag.text rest)]
  cases tag <;> rfl

theorem reads_enclosing : Reads readJson (writeJson .enclosing) .enclosing := by
  refine ⟨(Json.reads_writeString "Enclosing").begins, fun rest _ => ?_⟩
  have htag := readTag_text .enclosing rest
  rw [Json.writeString_eq_cons, List.cons_append] at htag
  show readJson ('"' :: ((Json.writeString Tag.enclosing.text).tail ++ rest)) = _
  rw [readJson, bind_of_ok (peekToken_cons (by decide) _)]
  simp only [if_true]
  rw [bind_of_ok htag]
  rfl

theorem reads_scope (name : String) : Reads readJson (writeJson (.scope name)) (.scope name) := by
  refine ⟨⟨'{', _, rfl, .inr (.inr (.inl rfl))⟩, fun rest _ => ?_⟩
  let value := Json.writeString name ++ '}' :: rest
  have hname : Json.Reader.string value = .ok (name, '}' :: rest) :=
    (Json.reads_writeString name).reads _ (Json.delimits_brace rest)
  have hwritten : writeJson (.scope name) ++ rest =
      '{' :: (Json.writeString Tag.scope.text ++ ':' :: value) := by
    rw [writeJson, Json.writeObject_append]
    show '{' :: (Json.writeString "Scope" ++ ':' :: Json.writeString name ++ '}' :: rest) = _
    rw [List.append_assoc, List.cons_append]
    rfl
  rw [hwritten, readJson, bind_of_ok (peekToken_cons (by decide) _)]
  simp only [if_true, if_neg (by decide : '{' ≠ '"')]
  rw [bind_of_ok (advance_cons _ _), bind_of_ok (readTag_text .scope _),
    bind_of_ok (token_cons (by decide) value)]
  dsimp only
  rw [bind_of_ok hname, pure_bind, bind_of_ok (token_cons (by decide) rest)]
  rfl

theorem reads_writeJson : ∀ o : Origin, Reads readJson o.writeJson o
  | .scope name => reads_scope name
  | .enclosing => reads_enclosing

end Origin

theorem QualifiedName.reads_writeJson {kind : NameType} (q : QualifiedName kind) :
    Reads readJson q.writeJson q :=
  (Json.reads_record₂ (by decide) (Json.reads_writeString q.name) q.origin.reads_writeJson).bind
    fun _ => rfl

/-! ## Tables -/

namespace NameTable

variable {kind : NameType}

/-- The positions of the table fit. -/
def Fits (table : NameTable kind) : Prop := ∀ position ∈ table.keys, position.Fits

instance : DecidablePred (Fits : NameTable kind → Prop) := fun table =>
  inferInstanceAs (Decidable (∀ position ∈ table.keys, position.Fits))

theorem reads_writeJson {table : NameTable kind} (h : Fits table) :
    Reads readJson (writeJson table) table := by
  have hentries : ∀ e ∈ table.entries,
      Reads (Json.Reader.pair SourcePosition.readJson QualifiedName.readJson)
        (Json.writeArray [e.1.writeJson, e.2.writeJson]) e := by
    intro e he
    have hposition := SourcePosition.reads_writeJson (h e.1 (List.mem_map_of_mem he))
    exact Json.reads_pair hposition e.2.reads_writeJson
  refine (Json.reads_list hentries).bind fun text => ?_
  rw [OrderedMap.ofList_entries]
  rfl

theorem yields_readJson : Yields Fits (readJson : Json.Reader (NameTable kind)) := by
  have hname : Yields (fun _ => True) (QualifiedName.readJson : Json.Reader (QualifiedName kind)) :=
    fun _ _ _ _ => trivial
  refine (Json.yields_list (Json.yields_pair SourcePosition.yields_readJson hname)).bind
    fun entries hentries => Json.yields_pure ?_
  intro position hposition
  rw [OrderedMap.mem_keys_ofList] at hposition
  obtain ⟨e, he, rfl⟩ := List.mem_map.mp hposition
  exact (hentries e he).1

end NameTable

/-! ## Resolutions -/

namespace Resolution

/-- The positions of both tables fit. -/
structure Fits (r : Resolution) : Prop where
  methods : NameTable.Fits r.methods
  identifiers : NameTable.Fits r.identifiers

instance : DecidablePred Fits := fun r =>
  decidable_of_iff (NameTable.Fits r.methods ∧ NameTable.Fits r.identifiers)
    ⟨fun h => ⟨h.1, h.2⟩, fun h => ⟨h.methods, h.identifiers⟩⟩

theorem reads_writeJson {r : Resolution} (h : r.Fits) : Reads readJson r.writeJson r := by
  have hmethods := NameTable.reads_writeJson h.methods
  have hidentifiers := NameTable.reads_writeJson h.identifiers
  exact (Json.reads_record₂ (by decide) hmethods hidentifiers).bind fun _ => rfl

theorem yields_readJson : Yields Fits readJson :=
  (Json.yields_record₂ NameTable.yields_readJson NameTable.yields_readJson
    "methods" "identifiers").bind fun _ h => Json.yields_pure ⟨h.1, h.2⟩

theorem ofJson_toJson {r : Resolution} (h : r.Fits) : ofJson r.toJson = .ok r :=
  (reads_writeJson h).readAll

theorem fits_of_ofJson {text : String} {r : Resolution} (h : ofJson text = .ok r) : r.Fits := by
  unfold ofJson Json.Reader.readAll at h
  split at h
  case h_1 => cases h
  case h_2 r' rest hread =>
    split at h
    case isTrue =>
      obtain rfl := Except.ok.inj h
      exact yields_readJson _ _ _ hread
    case isFalse => cases h

/-- The written form of a resolution is read back as the same entries in the same order, so that
different resolutions are written differently, and what is read can be written and read again. -/
theorem lossless_toJson :
    (∀ r : Resolution, r.Fits → ofJson r.toJson = .ok r) ∧
      (∀ r s : Resolution, r.Fits → s.Fits →
        r.methods.entries ≠ s.methods.entries ∨ r.identifiers.entries ≠ s.identifiers.entries →
        r.toJson ≠ s.toJson) ∧
      ∀ (text : String) (r : Resolution), ofJson text = .ok r → ofJson r.toJson = .ok r := by
  refine ⟨fun r => ofJson_toJson, ?_, fun text r h => ofJson_toJson (fits_of_ofJson h)⟩
  intro r s hr hs hentries htexts
  have hread : ofJson r.toJson = .ok s := by
    rw [htexts]
    exact ofJson_toJson hs
  obtain rfl : r = s := Except.ok.inj ((ofJson_toJson hr).symm.trans hread)
  exact hentries.elim (· rfl) (· rfl)

/-- Two resolutions that differ in the order of their methods only, with marks, a line break and
letters outside ASCII in the names, and a text with blanks and without keys. -/
theorem lossless_quotedNames :
    let first : SourcePosition × QualifiedName .method :=
      (⟨⟨0⟩, ⟨2, 4294967295⟩⟩, ⟨"say \"hi\"", .scope "back\\slash\n"⟩)
    let second : SourcePosition × QualifiedName .method :=
      (⟨⟨4294967295⟩, ⟨0, 0⟩⟩, ⟨"größe", .enclosing⟩)
    let identifiers : NameTable .identifier := ⟨[(⟨⟨0⟩, ⟨1, 7⟩⟩, ⟨"\t日本", .enclosing⟩)], by decide⟩
    let r : Resolution := ⟨⟨[first, second], by decide⟩, identifiers⟩
    let s : Resolution := ⟨⟨[second, first], by decide⟩, identifiers⟩
    (r.Fits ∧ ofJson r.toJson = .ok r) ∧ (s.Fits ∧ r.toJson ≠ s.toJson) ∧
      ofJson " [ [ ], [ ] ]" = .ok empty ∧ ofJson empty.toJson = .ok empty := by
  intro first second identifiers r s
  have hr : r.Fits := by decide
  have hs : s.Fits := by decide
  have hempty : ofJson " [ [ ], [ ] ]" = .ok empty := rfl
  have hmethods : r.methods.entries ≠ s.methods.entries := by decide
  obtain ⟨hreads, hdiffer, hagain⟩ := lossless_toJson
  exact ⟨⟨hr, hreads r hr⟩, ⟨hs, hdiffer r s hr hs (.inl hmethods)⟩, hempty, hagain _ _ hempty⟩

end Resolution

end NameResolution
