import NameResolution.Json.Shape
import NameResolution.Json.Write

/-!
# Written numbers and strings are read back

What is written is followed by a comma, a closing bracket or the end of the text (`Delimits`), and a
reader that takes a written value off the front of such a text leaves the rest alone (`Reads`). Here
this is shown of numbers (`reads_writeNat`) and strings (`reads_writeString`).
-/

namespace NameResolution.Json

/-- What may follow a written value. -/
def Delimits (rest : List Char) : Prop := ∀ c ∈ rest.head?, c = ',' ∨ c = ']' ∨ c = '}'

/-- What a written value may begin with. -/
def BeginsValue (c : Char) : Prop := c = '"' ∨ c = '[' ∨ c = '{' ∨ c.isDigit = true

/-- A reader takes a written form off the front of a text, and reads it as the value `a`. -/
structure Reads {α : Type} (reader : Reader α) (written : List Char) (a : α) : Prop where
  begins : ∃ c tail, written = c :: tail ∧ BeginsValue c
  reads : ∀ rest, Delimits rest → reader (written ++ rest) = .ok (a, rest)

theorem delimits_nil : Delimits [] := nofun

theorem delimits_comma (rest : List Char) : Delimits (',' :: rest) := by
  rintro c ⟨⟩
  exact .inl rfl

theorem delimits_bracket (rest : List Char) : Delimits (']' :: rest) := by
  rintro c ⟨⟩
  exact .inr (.inl rfl)

theorem delimits_brace (rest : List Char) : Delimits ('}' :: rest) := by
  rintro c ⟨⟩
  exact .inr (.inr rfl)

theorem Delimits.isDigit {rest : List Char} (h : Delimits rest) :
    ∀ c ∈ rest.head?, c.isDigit = false := by
  intro c hc
  rcases h c hc with rfl | rfl | rfl <;> rfl

theorem BeginsValue.isBlank {c : Char} (h : BeginsValue c) : Reader.isBlank c = false := by
  rw [← Bool.not_eq_true]
  intro hblank
  have hcases : ((c = ' ' ∨ c = '\t') ∨ c = '\n') ∨ c = '\r' := by
    simpa [Reader.isBlank] using hblank
  rcases hcases with ((rfl | rfl) | rfl) | rfl <;> revert h <;> simp [BeginsValue]

theorem BeginsValue.ne_close {c : Char} (h : BeginsValue c) : c ≠ ']' ∧ c ≠ '}' := by
  constructor <;> (rintro rfl; revert h; simp [BeginsValue])

namespace Reader

variable {α β : Type}

/-! ## Steps of a reader -/

theorem bind_of_ok {x : Reader α} {f : α → Reader β} {text rest : List Char} {a : α}
    (h : x text = .ok (a, rest)) : (x >>= f) text = f a rest := by
  show Except.bind (x text) _ = _
  rw [h]
  rfl

theorem peekToken_cons {c : Char} (hc : isBlank c = false) (rest : List Char) :
    peekToken (c :: rest) = .ok (some c, c :: rest) := by
  unfold peekToken
  rw [List.dropWhile_cons_of_neg (Bool.eq_false_iff.mp hc)]
  rfl

theorem advance_cons (c : Char) (rest : List Char) : advance (c :: rest) = .ok ((), rest) := rfl

theorem token_cons {c : Char} (hc : isBlank c = false) (rest : List Char) :
    token c (c :: rest) = .ok ((), rest) := by
  rw [token, bind_of_ok (peekToken_cons hc rest)]
  simp only [if_true]
  exact advance_cons c rest

end Reader

/-- A reader of a value and what is made of the value. -/
theorem Reads.bind {α β : Type} {reader : Reader α} {f : α → Reader β} {written : List Char}
    {a : α} {b : β} (h : Reads reader written a) (hf : ∀ text, f a text = .ok (b, text)) :
    Reads (reader >>= f) written b := by
  refine ⟨h.begins, fun rest hrest => ?_⟩
  rw [Reader.bind_of_ok (h.reads rest hrest), hf]

/-- A text that is nothing but the written form. -/
theorem Reads.readAll {α : Type} {reader : Reader α} {written : List Char} {a : α}
    (h : Reads reader written a) : reader.readAll (String.ofList written) = .ok a := by
  have hread := h.reads [] delimits_nil
  rw [List.append_nil] at hread
  rw [Reader.readAll, String.toList_ofList, hread]
  rfl

/-! ## Numbers -/

theorem isDigit_eq (c : Char) : isDigit c = c.isDigit := by
  have hiff : ('0' ≤ c ∧ c ≤ '9') ↔ c.isDigit = true := by
    simp only [Char.isDigit, Bool.and_eq_true, decide_eq_true_eq]
    exact Iff.rfl
  unfold isDigit digitValue?
  split
  · rename_i h
    exact (hiff.mp h).symm
  · rename_i h
    exact (Bool.eq_false_iff.mpr fun hc => h (hiff.mpr hc)).symm

theorem digitValue?_of_isDigit {c : Char} (h : c.isDigit = true) :
    digitValue? c = some (c.toNat - '0'.toNat) := by
  rw [← isDigit_eq] at h
  unfold isDigit at h
  unfold digitValue? at h ⊢
  split
  · rfl
  · rename_i hc
    rw [if_neg hc] at h
    cases h

theorem digitValue?_of_not_isDigit {c : Char} (h : c.isDigit = false) : digitValue? c = none := by
  rw [← isDigit_eq] at h
  exact Option.isSome_eq_false_iff.mp h |> Option.isNone_iff_eq_none.mp

theorem le_ofDigitChars (ds : List Char) (value : Nat) : value ≤ Nat.ofDigitChars 10 ds value := by
  induction ds generalizing value with
  | nil => exact Nat.le_of_eq Nat.ofDigitChars_nil.symm
  | cons c ds ih =>
    rw [Nat.ofDigitChars_cons]
    have hle := ih (10 * value + (c.toNat - '0'.toNat))
    omega

/-- Digits go into a significand until something else comes, if their value fits. -/
theorem significand_go (ds rest : List Char) (value taken : Nat) (hds : ∀ c ∈ ds, c.isDigit = true)
    (hrest : ∀ c ∈ rest.head?, c.isDigit = false)
    (hfits : Nat.ofDigitChars 10 ds value < Nat.pow 2 64) :
    Reader.significand.go value taken (ds ++ rest) =
      ((Nat.ofDigitChars 10 ds value, taken + ds.length), rest) := by
  induction ds generalizing value taken with
  | nil =>
    cases rest with
    | nil => rfl
    | cons c rest =>
      rw [List.nil_append, Reader.significand.go, digitValue?_of_not_isDigit (hrest c rfl)]
      rfl
  | cons c ds ih =>
    obtain ⟨hc, hds⟩ := List.forall_mem_cons.mp hds
    rw [Nat.ofDigitChars_cons] at hfits ⊢
    have hle := le_ofDigitChars ds (10 * value + (c.toNat - '0'.toNat))
    rw [List.cons_append, Reader.significand.go, digitValue?_of_isDigit hc]
    dsimp only
    rw [Nat.mul_comm value 10, if_pos (Nat.lt_of_le_of_lt hle hfits), ih _ _ hds hfits,
      List.length_cons, Nat.add_assoc, Nat.add_comm 1]

theorem isDigit_of_mem_writeNat {n : Nat} {c : Char} (h : c ∈ writeNat n) : c.isDigit = true :=
  Nat.isDigit_of_mem_toDigits (by decide) (by decide) h

/-- A number other than zero does not begin with a zero. -/
theorem head?_writeNat {n : Nat} (h : 0 < n) : (writeNat n).head? ≠ some '0' := by
  unfold writeNat
  induction n using Nat.strongRecOn with
  | ind n ih =>
    by_cases hn : n < 10
    · have hall : ∀ n < 10, 0 < n → Nat.digitChar n ≠ '0' := by decide
      rw [Nat.toDigits_of_lt_base hn]
      simpa using hall n hn h
    · rw [Nat.toDigits_of_base_le (by decide) (by omega), List.head?_append]
      have hfirst := ih (n / 10) (by omega) (by omega)
      cases hhead : (Nat.toDigits 10 (n / 10)).head? with
      | none => exact absurd (List.head?_eq_none_iff.mp hhead) Nat.toDigits_ne_nil
      | some c =>
        rw [hhead] at hfirst
        exact hfirst

theorem integerTail_of_delimits {rest : List Char} (h : Delimits rest) (value : Nat) :
    Reader.integerTail false value 0 rest = .ok (.natural value, rest) := by
  cases rest with
  | nil => rfl
  | cons c rest => rcases h c rfl with rfl | rfl | rfl <;> rfl

theorem digits_of_delimits {rest : List Char} (h : Delimits rest) :
    Reader.digits rest = .ok ([], rest) := by
  cases rest with
  | nil => rfl
  | cons c rest => rcases h c rfl with rfl | rfl | rfl <;> rfl

theorem numeral_of_isDigit {c : Char} (hc : c.isDigit = true) (text : List Char) :
    Reader.numeral (c :: text) = Reader.unsignedNumeral false (c :: text) := by
  have hpeek : Reader.peek (c :: text) = .ok (some c, c :: text) := rfl
  rw [Reader.numeral, Reader.bind_of_ok hpeek]
  refine congrFun ?_ _
  split
  · rename_i hminus
    obtain rfl := Option.some.inj hminus
    cases hc
  · rfl

/-- Digits other than a leading zero are a significand and what does not fit into it. -/
theorem unsignedNumeral_of_isDigit {c : Char} (hc : c.isDigit = true) (hzero : c ≠ '0')
    (text : List Char) :
    Reader.unsignedNumeral false (c :: text) =
      (Reader.significand 0 >>= fun r => Reader.digits >>= fun beyond =>
        Reader.integerTail false r.1 beyond.length) (c :: text) := by
  have hpeek : Reader.peek (c :: text) = .ok (some c, c :: text) := rfl
  rw [Reader.unsignedNumeral, Reader.bind_of_ok hpeek]
  refine congrFun ?_ _
  split
  · rename_i hnone
    cases hnone
  · rename_i hzero'
    exact absurd (Option.some.inj hzero') hzero
  · rename_i c' _ hc'
    obtain rfl := Option.some.inj hc'
    rw [isDigit_eq, if_pos hc]

theorem numeral_writeNat {n : Nat} (hn : n < Nat.pow 2 64) {rest : List Char}
    (hrest : Delimits rest) : Reader.numeral (writeNat n ++ rest) = .ok (.natural n, rest) := by
  cases Nat.eq_zero_or_pos n with
  | inl hzero =>
    subst hzero
    show Reader.numeral ('0' :: rest) = _
    cases rest with
    | nil => rfl
    | cons c rest => rcases hrest c rfl with rfl | rfl | rfl <;> rfl
  | inr hpos =>
    obtain ⟨c, tail, hwritten⟩ : ∃ c tail, writeNat n = c :: tail :=
      List.exists_cons_of_ne_nil Nat.toDigits_ne_nil
    have hc : c.isDigit = true := isDigit_of_mem_writeNat (n := n) (by rw [hwritten]; simp)
    have hzero : c ≠ '0' := by
      have hfirst := head?_writeNat hpos
      rw [hwritten] at hfirst
      exact fun heq => hfirst (congrArg some heq)
    have hvalue : Nat.ofDigitChars 10 (writeNat n) 0 = n := Nat.ofDigitChars_ten_toDigits
    have hsignificand : Reader.significand 0 (writeNat n ++ rest) =
        .ok ((n, 0 + (writeNat n).length), rest) := by
      rw [Reader.significand, significand_go (writeNat n) rest 0 0
        (fun c => isDigit_of_mem_writeNat) hrest.isDigit (by rwa [hvalue]), hvalue]
    rw [hwritten] at hsignificand ⊢
    rw [List.cons_append] at hsignificand ⊢
    rw [numeral_of_isDigit hc, unsignedNumeral_of_isDigit hc hzero,
      Reader.bind_of_ok hsignificand, Reader.bind_of_ok (digits_of_delimits hrest)]
    exact integerTail_of_delimits hrest n

theorem reads_writeNat {n : Nat} (hn : n < Nat.pow 2 32) : Reads Reader.word32 (writeNat n) n := by
  obtain ⟨c, tail, hwritten⟩ : ∃ c tail, writeNat n = c :: tail :=
    List.exists_cons_of_ne_nil Nat.toDigits_ne_nil
  have hc : c.isDigit = true := isDigit_of_mem_writeNat (n := n) (by rw [hwritten]; simp)
  have hbegins : BeginsValue c := .inr (.inr (.inr hc))
  refine ⟨⟨c, tail, hwritten, hbegins⟩, fun rest hrest => ?_⟩
  have hnumeral := numeral_writeNat (Nat.lt_trans hn (by decide)) hrest
  rw [hwritten, List.cons_append] at hnumeral ⊢
  rw [Reader.word32, Reader.bind_of_ok (Reader.peekToken_cons hbegins.isBlank _)]
  simp only [isDigit_eq, hc, Bool.or_true, if_true]
  rw [Reader.bind_of_ok hnumeral]
  simp only [hn, if_true]
  rfl

/-! ## Strings -/

theorem readChars_quote (rest : List Char) : readChars ('"' :: rest) = .ok ([], rest) := by
  rw [readChars, if_pos rfl]

theorem readChars_escaped {text rest : List Char} {c : Char} (h : readEscape text = .ok (c, rest)) :
    readChars ('\\' :: text) = (readChars rest).map fun r => (c :: r.1, r.2) := by
  rw [readChars, if_neg (by decide), if_pos rfl]
  split
  · rename_i hread
    cases hread.symm.trans h
  · rename_i hread
    obtain ⟨rfl, rfl⟩ := Prod.mk.inj (Except.ok.inj (hread.symm.trans h))
    rfl

theorem readChars_plain {c : Char} (hquote : c ≠ '"') (hbackslash : c ≠ '\\')
    (hcontrol : ¬ c.toNat < 0x20) (rest : List Char) :
    readChars (c :: rest) = (readChars rest).map fun r => (c :: r.1, r.2) := by
  rw [readChars, if_neg hquote, if_neg hbackslash, if_neg hcontrol]

/-- The number of a control character stands in the last two digits of its escape. -/
theorem hexQuad?_hexDigit : ∀ n < 0x20,
    hexQuad? '0' '0' (hexDigit (n / 16)) (hexDigit (n % 16)) = some n := by
  decide

theorem readEscape_control {c : Char} (h : c.toNat < 0x20) (rest : List Char) :
    readEscape ('u' :: '0' :: '0' :: hexDigit (c.toNat / 16) :: hexDigit (c.toNat % 16) :: rest) =
      .ok (c, rest) := by
  rw [readEscape, if_pos rfl, readUnicode, readHexQuad, hexQuad?_hexDigit _ h]
  have hlow : isLowSurrogate c.toNat = false := decide_eq_false (by omega)
  have hhigh : isHighSurrogate c.toNat = false := decide_eq_false (by omega)
  simp only [hlow, hhigh, Char.ofNat_toNat, if_false, Bool.false_eq_true]

/-- Every written character is read as itself. -/
theorem readChars_escape (c : Char) (rest : List Char) :
    readChars (escape c ++ rest) = (readChars rest).map fun r => (c :: r.1, r.2) := by
  unfold escape
  split
  case h_8 hquote hbackslash _ _ _ _ _ =>
    split
    · rename_i hcontrol
      exact readChars_escaped (readEscape_control hcontrol rest)
    · rename_i hcontrol
      exact readChars_plain hquote hbackslash hcontrol rest
  all_goals exact readChars_escaped rfl

theorem readChars_flatMap_escape (cs rest : List Char) :
    readChars (cs.flatMap escape ++ '"' :: rest) = .ok (cs, rest) := by
  induction cs with
  | nil => exact readChars_quote rest
  | cons c cs ih =>
    rw [List.flatMap_cons, List.append_assoc, readChars_escape, ih]
    rfl

/-- A string is read back whatever follows it. -/
theorem stringTail_writeString (s : String) (rest : List Char) :
    Reader.stringTail ((writeString s).tail ++ rest) = .ok (s, rest) := by
  have hread := readChars_flatMap_escape s.toList rest
  rw [writeString, List.tail_cons, List.append_assoc, List.singleton_append, Reader.stringTail,
    hread]
  show Except.ok (String.ofList s.toList, rest) = _
  rw [String.ofList_toList]

theorem writeString_eq_cons (s : String) : writeString s = '"' :: (writeString s).tail := rfl

theorem reads_writeString (s : String) : Reads Reader.string (writeString s) s := by
  refine ⟨⟨'"', _, writeString_eq_cons s, .inl rfl⟩, fun rest _ => ?_⟩
  rw [writeString_eq_cons, List.cons_append, Reader.string,
    Reader.bind_of_ok (Reader.peekToken_cons (by decide) _)]
  exact stringTail_writeString s rest

end NameResolution.Json
