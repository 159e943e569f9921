import NameResolution.Proofs.Json.Scalars

/-!
# Written lists and records are read back

An array is read back when each of its values is (`reads_list`, `reads_pair`), and an object when
its members are, each into the draft that the ones before have left (`Drafts`, `reads_record`).
-/

namespace NameResolution.Json

variable {α β σ : Type}

/-! ## Parts with commas between them -/

/-- What follows the parts before these: a comma first, unless there are none. -/
def remaining (first : Bool) (parts : List (List Char)) : List Char :=
  if first || parts.isEmpty then separated parts else ',' :: separated parts

theorem remaining_true (parts : List (List Char)) : remaining true parts = separated parts := rfl

theorem remaining_nil (first : Bool) : remaining first [] = [] := by
  cases first <;> rfl

theorem separated_cons (part : List Char) (parts : List (List Char)) :
    separated (part :: parts) = part ++ remaining false parts := by
  cases parts with
  | nil => exact (List.append_nil part).symm
  | cons next parts => rfl

theorem delimits_remaining (parts : List (List Char)) {close : List Char} (h : Delimits close) :
    Delimits (remaining false parts ++ close) := by
  cases parts with
  | nil => exact h
  | cons part parts => exact delimits_comma _

/-- Parts that are not empty are no more than the characters of their list. -/
theorem length_le_length_separated {parts : List (List Char)} (h : ∀ part ∈ parts, part ≠ []) :
    parts.length ≤ (separated parts).length := by
  induction parts with
  | nil => exact Nat.le_refl 0
  | cons part parts ih =>
    obtain ⟨hpart, hparts⟩ := List.forall_mem_cons.mp h
    have hpos := List.length_pos_iff.mpr hpart
    have hrest := ih hparts
    rw [separated_cons, List.length_append, List.length_cons]
    unfold remaining
    split
    · omega
    · rw [List.length_cons]
      omega

namespace Reader

/-- After the last part comes the closing bracket. -/
theorem another_close {close : Char} (hclose : isBlank close = false) (first : Bool)
    (rest : List Char) : another close first (close :: rest) = .ok (false, rest) := by
  rw [another, bind_of_ok (peekToken_cons hclose rest)]
  simp only [if_true]
  rfl

/-- Before the last part comes a comma and a part, or a part at once if it is the first. -/
theorem another_part {close c : Char} (hcomma : close ≠ ',') (hc : isBlank c = false)
    (hne : c ≠ close) {parts : List (List Char)} {tail : List Char} (first : Bool)
    (hparts : parts ≠ []) (hbegins : separated parts = c :: tail) (rest : List Char) :
    another close first (remaining first parts ++ rest) = .ok (true, separated parts ++ rest) := by
  rw [hbegins]
  cases first with
  | true =>
    rw [remaining_true, hbegins, List.cons_append, another, bind_of_ok (peekToken_cons hc _)]
    simp only [hne, if_true, if_false]
    rfl
  | false =>
    obtain ⟨part, parts, rfl⟩ := List.exists_cons_of_ne_nil hparts
    have hremaining : remaining false (part :: parts) = ',' :: c :: tail := by
      rw [← hbegins]
      rfl
    rw [hremaining, List.cons_append, List.cons_append, another,
      bind_of_ok (peekToken_cons (by decide) _)]
    simp only [hcomma.symm, if_true, if_false, Bool.false_eq_true]
    rw [bind_of_ok (advance_cons _ _), bind_of_ok (peekToken_cons hc _)]
    simp only [hne, if_false]
    rfl

end Reader

/-! ## Lists -/

/-- A part that a reader reads is followed by the remaining parts. -/
theorem Reads.separated {reader : Reader α} {written : List Char} {a : α}
    (h : Reads reader written a) (parts : List (List Char)) {close : List Char}
    (hclose : Delimits close) :
    reader (Json.separated (written :: parts) ++ close) =
      .ok (a, remaining false parts ++ close) := by
  rw [separated_cons, List.append_assoc]
  exact h.reads _ (delimits_remaining parts hclose)

/-- Where a value has been written, an array goes on. -/
theorem Reads.another {reader : Reader α} {written : List Char} {a : α}
    (h : Reads reader written a) (first : Bool) (parts : List (List Char)) (rest : List Char) :
    Reader.another ']' first (remaining first (written :: parts) ++ ']' :: rest) =
      .ok (true, Json.separated (written :: parts) ++ ']' :: rest) := by
  obtain ⟨c, tail, rfl, hc⟩ := h.begins
  have hbegins : Json.separated ((c :: tail) :: parts) = c :: (tail ++ remaining false parts) := by
    rw [separated_cons, List.cons_append]
  exact Reader.another_part (by decide) hc.isBlank hc.ne_close.1 first (List.cons_ne_nil _ _)
    hbegins (']' :: rest)

/-- Items are read from any point of their list on, with a step for each and one for the bracket. -/
theorem items_separated {item : Reader α} {write : α → List Char} {l : List α}
    (hitems : ∀ a ∈ l, Reads item (write a) a) {steps : Nat} (hsteps : l.length < steps)
    (first : Bool) (rest : List Char) :
    Reader.items item steps first (remaining first (l.map write) ++ ']' :: rest) =
      .ok (l, rest) := by
  induction l generalizing steps first with
  | nil =>
    obtain ⟨steps, rfl⟩ := Nat.exists_eq_add_of_lt hsteps
    rw [List.map_nil, remaining_nil, List.nil_append, List.length_nil, Nat.zero_add, Reader.items,
      Reader.bind_of_ok (Reader.another_close (by decide) first rest)]
    rfl
  | cons a l ih =>
    obtain ⟨hitem, hitems⟩ := List.forall_mem_cons.mp hitems
    obtain ⟨steps, rfl⟩ : ∃ n, steps = n + 1 := ⟨steps - 1, by omega⟩
    have hanother := hitem.another first (l.map write) rest
    have hread := hitem.separated (l.map write) (delimits_bracket rest)
    have hrest := ih hitems (Nat.lt_of_succ_lt_succ hsteps) false
    rw [List.map_cons, Reader.items, Reader.bind_of_ok hanother]
    simp only [if_true]
    rw [Reader.bind_of_ok hread, Reader.bind_of_ok hrest]
    rfl

theorem writeArray_append (values : List (List Char)) (rest : List Char) :
    writeArray values ++ rest = '[' :: (separated values ++ ']' :: rest) := by
  rw [writeArray, List.cons_append, List.append_assoc, List.singleton_append]

/-- An array is read back when its values are. -/
theorem reads_list {item : Reader α} {write : α → List Char} {l : List α}
    (hitems : ∀ a ∈ l, Reads item (write a) a) :
    Reads (Reader.list item) (writeArray (l.map write)) l := by
  refine ⟨⟨'[', _, rfl, .inr (.inl rfl)⟩, fun rest _ => ?_⟩
  have hlength : l.length ≤ (separated (l.map write)).length := by
    rw [← List.length_map write]
    refine length_le_length_separated fun part hpart => ?_
    obtain ⟨a, ha, rfl⟩ := List.mem_map.mp hpart
    obtain ⟨c, tail, hbegins, -⟩ := (hitems a ha).begins
    rw [hbegins]
    exact List.cons_ne_nil _ _
  rw [writeArray_append, Reader.list, Reader.bind_of_ok (Reader.peekToken_cons (by decide) _)]
  simp only [if_true]
  rw [Reader.bind_of_ok (Reader.advance_cons _ _), Reader.itemsTail, ← remaining_true]
  refine items_separated hitems ?_ true rest
  rw [remaining_true, List.length_append, List.length_cons]
  omega

/-! ## Records -/

/-- Members are read in their order, each into a field that is still free, and take a draft to
another. -/
inductive Drafts (fields : List (Reader.Field σ)) : σ → List (String × List Char) → σ → Prop where
  | nil {draft : σ} : Drafts fields draft [] draft
  | cons {draft next final : σ} {key : String} {written : List Char}
      {members : List (String × List Char)} {field : Reader.Field σ}
      (hfield : fields.find? (·.key == key) = some field) (hfree : field.isRead draft = false)
      (hread : Reads (field.read draft) written next) (hrest : Drafts fields next members final) :
      Drafts fields draft ((key, written) :: members) final

/-- The written form of a member. -/
def writeMember (member : String × List Char) : List Char :=
  writeString member.1 ++ ':' :: member.2

theorem writeObject_append (members : List (String × List Char)) (rest : List Char) :
    writeObject members ++ rest = '{' :: (separated (members.map writeMember) ++ '}' :: rest) := by
  show '{' :: (separated (members.map writeMember) ++ ['}'] ++ rest) = _
  rw [List.append_assoc, List.singleton_append]

/-- Members are read from any point of their list on, with a step for each and one for the
bracket. -/
theorem members_separated {fields : List (Reader.Field σ)} {draft final : σ}
    {members : List (String × List Char)} (h : Drafts fields draft members final) {steps : Nat}
    (hsteps : members.length < steps) (first : Bool) (rest : List Char) :
    Reader.members fields steps first draft
        (remaining first (members.map writeMember) ++ '}' :: rest) = .ok (final, rest) := by
  induction h generalizing steps first with
  | nil =>
    obtain ⟨steps, rfl⟩ : ∃ n, steps = n + 1 := ⟨steps - 1, by omega⟩
    rw [List.map_nil, remaining_nil, List.nil_append, Reader.members,
      Reader.bind_of_ok (Reader.another_close (by decide) first rest)]
    rfl
  | @cons draft next final key written members field hfield hfree hread _ ih =>
    obtain ⟨steps, rfl⟩ : ∃ n, steps = n + 1 := ⟨steps - 1, by omega⟩
    let others := remaining false (members.map writeMember)
    have hrest : Reader.members fields steps false next (others ++ '}' :: rest) =
        .ok (final, rest) := ih (Nat.lt_of_succ_lt_succ hsteps) false
    have hvalue : field.read draft (written ++ (others ++ '}' :: rest)) =
        .ok (next, others ++ '}' :: rest) :=
      hread.reads _ (delimits_remaining _ (delimits_brace rest))
    have hcolon : Reader.token ':' (':' :: (written ++ (others ++ '}' :: rest))) =
        .ok ((), written ++ (others ++ '}' :: rest)) := Reader.token_cons (by decide) _
    -- a member begins with the quotation mark of its key
    have hbegins : separated (writeMember (key, written) :: members.map writeMember) =
        '"' :: ((writeString key).tail ++ ':' :: (written ++ others)) := by
      rw [separated_cons, writeMember, List.append_assoc]
      rfl
    have hanother := Reader.another_part (by decide : '}' ≠ ',') (by decide) (by decide) first
      (List.cons_ne_nil _ _) hbegins ('}' :: rest)
    rw [List.map_cons, Reader.members, Reader.bind_of_ok hanother, hbegins]
    simp only [if_true, List.cons_append, List.append_assoc]
    rw [Reader.bind_of_ok (Reader.token_cons (by decide) _),
      Reader.bind_of_ok (stringTail_writeString key _)]
    simp only [hfield, hfree, Bool.false_eq_true, if_false]
    rw [Reader.bind_of_ok hcolon, Reader.bind_of_ok hvalue]
    exact hrest

/-- An object is read back when its members are. -/
theorem reads_record {fields : List (Reader.Field σ)} {draft final : σ}
    {members : List (String × List Char)} (h : Drafts fields draft members final) :
    Reads (Reader.record fields draft) (writeObject members) final := by
  refine ⟨⟨'{', _, rfl, .inr (.inr (.inl rfl))⟩, fun rest _ => ?_⟩
  have hlength : members.length ≤ (separated (members.map writeMember)).length := by
    rw [← List.length_map writeMember]
    refine length_le_length_separated fun part hpart => ?_
    obtain ⟨member, -, rfl⟩ := List.mem_map.mp hpart
    exact List.cons_ne_nil _ _
  rw [writeObject_append, Reader.record, Reader.bind_of_ok (Reader.peekToken_cons (by decide) _)]
  simp only [if_true, if_neg (by decide : '{' ≠ '[')]
  rw [Reader.bind_of_ok (Reader.advance_cons _ _), Reader.membersTail, ← remaining_true]
  refine members_separated h ?_ true rest
  rw [remaining_true, List.length_append, List.length_cons]
  omega

section TwoValues

variable {first : Reader α} {second : Reader β} {written₁ written₂ : List Char} {a : α} {b : β}

theorem reads_record₂ {key₁ key₂ : String} (hkeys : key₁ ≠ key₂) (hfirst : Reads first written₁ a)
    (hsecond : Reads second written₂ b) :
    Reads (Reader.record₂ key₁ first key₂ second)
      (writeObject [(key₁, written₁), (key₂, written₂)]) (a, b) := by
  have hfield₁ : (Reader.twoFields key₁ first key₂ second).find? (·.key == key₁) = some _ :=
    List.find?_cons_of_pos (beq_self_eq_true key₁)
  have hfield₂ : (Reader.twoFields key₁ first key₂ second).find? (·.key == key₂) = some _ :=
    (List.find?_cons_of_neg (by simpa using hkeys)).trans
      (List.find?_cons_of_pos (beq_self_eq_true key₂))
  have hdraft₂ : Drafts (Reader.twoFields key₁ first key₂ second) (some a, none)
      [(key₂, written₂)] (some a, some b) := .cons hfield₂ rfl (hsecond.bind fun _ => rfl) .nil
  have hdraft₁ : Drafts (Reader.twoFields key₁ first key₂ second) (none, none)
      [(key₁, written₁), (key₂, written₂)] (some a, some b) :=
    .cons hfield₁ rfl (hfirst.bind fun _ => rfl) hdraft₂
  exact (reads_record hdraft₁).bind fun _ => rfl

/-- The value of a field goes into the draft, and the other values are left. -/
theorem positional_part {field : Reader.Field σ} {draft next : σ} {written : List Char}
    (hread : Reads (field.read draft) written next) (fields : List (Reader.Field σ))
    (isFirst : Bool) (parts : List (List Char)) (rest : List Char) :
    Reader.positional (field :: fields) isFirst draft
        (remaining isFirst (written :: parts) ++ ']' :: rest) =
      Reader.positional fields false next (remaining false parts ++ ']' :: rest) := by
  rw [Reader.positional, Reader.bind_of_ok (hread.another isFirst parts rest)]
  simp only [if_true]
  exact Reader.bind_of_ok (hread.separated parts (delimits_bracket rest))

/-- An array of two values is read back when both are. -/
theorem reads_pair (hfirst : Reads first written₁ a) (hsecond : Reads second written₂ b) :
    Reads (Reader.pair first second) (writeArray [written₁, written₂]) (a, b) := by
  refine ⟨⟨'[', _, rfl, .inr (.inl rfl)⟩, fun rest _ => ?_⟩
  have hvalues : Reader.positional (Reader.twoFields "" first "" second) true (none, none)
      (separated [written₁, written₂] ++ ']' :: rest) = .ok ((some a, some b), rest) := by
    rw [Reader.twoFields, ← remaining_true,
      positional_part (hfirst.bind fun _ => rfl : Reads _ written₁ (some a, none)),
      positional_part (hsecond.bind fun _ => rfl : Reads _ written₂ (some a, some b)),
      Reader.positional, remaining_nil, List.nil_append,
      Reader.bind_of_ok (Reader.token_cons (by decide) rest)]
    rfl
  rw [writeArray_append, Reader.pair, Reader.bind_of_ok (Reader.peekToken_cons (by decide) _)]
  simp only [if_true]
  rw [Reader.bind_of_ok (Reader.advance_cons _ _), Reader.bind_of_ok hvalues]
  rfl

end TwoValues

end NameResolution.Json
