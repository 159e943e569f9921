import NameResolution.Json.Reader
import NameResolution.Text.Bytes

/-!
# JSON strings

A string stands between quotation marks. `escape` writes a character: quotation mark, backslash and
the characters below U+0020 get an escape, everything else stands for itself. `readEscape` takes
every escape of the format, a pair of `\u` escapes for a character beyond U+FFFF included.
-/

namespace NameResolution.Json

/-! ## Writing -/

/-- A hexadecimal digit in lower case. -/
def hexDigit (n : Nat) : Char := Nat.digitChar n

/-- The written form of a character. -/
def escape (c : Char) : List Char :=
  match c with
  | '"' => ['\\', '"']
  | '\\' => ['\\', '\\']
  | '\x08' => ['\\', 'b']
  | '\t' => ['\\', 't']
  | '\n' => ['\\', 'n']
  | '\x0c' => ['\\', 'f']
  | '\r' => ['\\', 'r']
  | c =>
    if c.toNat < 0x20 then
      ['\\', 'u', '0', '0', hexDigit (c.toNat / 16), hexDigit (c.toNat % 16)]
    else [c]

/-- The written form of a string. -/
def writeString (s : String) : List Char := '"' :: (s.toList.flatMap escape ++ ['"'])

/-! ## Reading -/

/-- The value of a hexadecimal digit. -/
def hexValue? (c : Char) : Option Nat :=
  if '0' ≤ c ∧ c ≤ '9' then some (c.toNat - '0'.toNat)
  else if 'a' ≤ c ∧ c ≤ 'f' then some (c.toNat - 'a'.toNat + 10)
  else if 'A' ≤ c ∧ c ≤ 'F' then some (c.toNat - 'A'.toNat + 10)
  else none

/-- The number that four hexadecimal digits make. -/
def hexQuad? (a b c d : Char) : Option Nat := do
  return (((← hexValue? a) * 16 + (← hexValue? b)) * 16 + (← hexValue? c)) * 16 + (← hexValue? d)

/-- The number after `\u`. Fewer than four bytes are too few, four others are wrong. -/
def readHexQuad : List Char → Except ReadError (Nat × List Char)
  | a :: b :: c :: d :: rest =>
    match hexQuad? a b c d with
    | some n => .ok (n, rest)
    | none => .error .malformed
  | rest => if Text.byteLength rest < 4 then .error .truncated else .error .malformed

/-- The number is the first of a surrogate pair. -/
def isHighSurrogate (n : Nat) : Bool := decide (0xD800 ≤ n ∧ n ≤ 0xDBFF)

/-- The number is the second of a surrogate pair. -/
def isLowSurrogate (n : Nat) : Bool := decide (0xDC00 ≤ n ∧ n ≤ 0xDFFF)

/-- The character of a surrogate pair. -/
def surrogatePair (high low : Nat) : Char :=
  Char.ofNat (0x10000 + (high - 0xD800) * 0x400 + (low - 0xDC00))

/-- The second half of a surrogate pair, in a `\u` escape of its own. -/
def readLowSurrogate (high : Nat) : List Char → Except ReadError (Char × List Char)
  | [] => .error .truncated
  | [c] => if c = '\\' then .error .truncated else .error .malformed
  | c :: c' :: rest =>
    if c = '\\' ∧ c' = 'u' then
      match readHexQuad rest with
      | .error e => .error e
      | .ok (low, rest) =>
        if isLowSurrogate low then .ok (surrogatePair high low, rest) else .error .malformed
    else .error .malformed

/-- The character that a `\u` escape stands for. -/
def readUnicode (rest : List Char) : Except ReadError (Char × List Char) :=
  match readHexQuad rest with
  | .error e => .error e
  | .ok (n, rest) =>
    if isLowSurrogate n then .error .malformed
    else if isHighSurrogate n then readLowSurrogate n rest
    else .ok (Char.ofNat n, rest)

/-- The character after a backslash, if one letter says it all. -/
def simpleEscape? : Char → Option Char
  | '"' => some '"'
  | '\\' => some '\\'
  | '/' => some '/'
  | 'b' => some '\x08'
  | 'f' => some '\x0c'
  | 'n' => some '\n'
  | 'r' => some '\r'
  | 't' => some '\t'
  | _ => none

/-- The character that an escape stands for, from after its backslash. -/
def readEscape : List Char → Except ReadError (Char × List Char)
  | [] => .error .truncated
  | c :: rest =>
    if c = 'u' then readUnicode rest
    else
      match simpleEscape? c with
      | some c => .ok (c, rest)
      | none => .error .malformed

/-- The same escape where its meaning does not matter: half a surrogate pair passes. -/
def skipEscape : List Char → Except ReadError (Unit × List Char)
  | [] => .error .truncated
  | c :: rest =>
    if c = 'u' then (readHexQuad rest).map fun r => ((), r.2)
    else if (simpleEscape? c).isSome then .ok ((), rest)
    else .error .malformed

/-! ### Escapes take something off the text -/

theorem length_of_readHexQuad {text rest : List Char} {n : Nat}
    (h : readHexQuad text = .ok (n, rest)) : rest.length < text.length := by
  unfold readHexQuad at h
  split at h
  · split at h
    · cases h
      simp only [List.length_cons]
      omega
    · cases h
  · split at h <;> cases h

theorem length_of_readLowSurrogate {high : Nat} {text rest : List Char} {c : Char}
    (h : readLowSurrogate high text = .ok (c, rest)) : rest.length < text.length := by
  unfold readLowSurrogate at h
  split at h
  · cases h
  · split at h <;> cases h
  · split at h
    · split at h
      · cases h
      · rename_i hq
        split at h
        · obtain ⟨-, rfl⟩ := Prod.mk.inj (Except.ok.inj h)
          have := length_of_readHexQuad hq
          simp only [List.length_cons]
          omega
        · cases h
    · cases h

theorem length_of_readUnicode {text rest : List Char} {c : Char}
    (h : readUnicode text = .ok (c, rest)) : rest.length < text.length := by
  unfold readUnicode at h
  split at h
  · cases h
  · rename_i hq
    have := length_of_readHexQuad hq
    split at h
    · cases h
    · split at h
      · have := length_of_readLowSurrogate h
        omega
      · obtain ⟨-, rfl⟩ := Prod.mk.inj (Except.ok.inj h)
        omega

theorem length_of_readEscape {text rest : List Char} {c : Char}
    (h : readEscape text = .ok (c, rest)) : rest.length < text.length := by
  unfold readEscape at h
  split at h
  · cases h
  · split at h
    · have := length_of_readUnicode h
      simp only [List.length_cons]
      omega
    · split at h
      · cases h
        simp
      · cases h

theorem length_of_skipEscape {text rest : List Char} {u : Unit}
    (h : skipEscape text = .ok (u, rest)) : rest.length < text.length := by
  unfold skipEscape at h
  split at h
  · cases h
  · rename_i tail
    split at h
    · cases hq : readHexQuad tail with
      | error e => simp [hq, Except.map] at h
      | ok r =>
        obtain ⟨n, rest'⟩ := r
        have := length_of_readHexQuad hq
        simp only [hq, Except.map, Except.ok.injEq, Prod.mk.injEq, true_and] at h
        subst h
        simp only [List.length_cons]
        omega
    · split at h
      · cases h
        simp
      · cases h

/-- The characters of a string up to its closing quotation mark, which is taken too. -/
def readChars : List Char → Except ReadError (List Char × List Char)
  | [] => .error .truncated
  | c :: rest =>
    if c = '"' then .ok ([], rest)
    else if c = '\\' then
      match h : readEscape rest with
      | .error e => .error e
      | .ok (c, rest') =>
        have := length_of_readEscape h
        (readChars rest').map fun r => (c :: r.1, r.2)
    else if c.toNat < 0x20 then .error .malformed
    else (readChars rest).map fun r => (c :: r.1, r.2)
termination_by text => text.length
decreasing_by all_goals (simp only [List.length_cons]; omega)

/-- Goes past the rest of a string without looking at what it says. -/
def skipChars : List Char → Except ReadError (Unit × List Char)
  | [] => .error .truncated
  | c :: rest =>
    if c = '"' then .ok ((), rest)
    else if c = '\\' then
      match h : skipEscape rest with
      | .error e => .error e
      | .ok (_, rest') =>
        have := length_of_skipEscape h
        skipChars rest'
    else if c.toNat < 0x20 then .error .malformed
    else skipChars rest
termination_by text => text.length
decreasing_by all_goals (simp only [List.length_cons]; omega)

namespace Reader

/-- A string from after its opening quotation mark. -/
def stringTail : Reader String := fun text =>
  (readChars text).map fun r => (String.ofList r.1, r.2)

end Reader

end NameResolution.Json
