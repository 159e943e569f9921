import NameResolution.Json.Reader

/-!
# JSON numbers

A number is an optional minus sign, digits without a leading zero, and optionally a fraction and an
exponent. Values here are natural numbers, so a numeral is read as one, or as `other` when it is
negative, has a fraction or an exponent, or does not fit into 64 bits.

A numeral of the second sort is still refused when it is too large for a double
(`Decimal.overflows`). Its value counts as significand times power of ten, where the significand
takes digits as long as it fits into 64 bits, and each factor is rounded to the nearest double.
-/

namespace NameResolution.Json

/-- A number, as far as a reader of natural numbers looks at it. -/
inductive Numeral where
  | natural (n : Nat)
  | other
deriving DecidableEq, Repr

/-- The value of a decimal digit. -/
def digitValue? (c : Char) : Option Nat :=
  if '0' ≤ c ∧ c ≤ '9' then some (c.toNat - '0'.toNat) else none

/-- A decimal digit. -/
def isDigit (c : Char) : Bool := (digitValue? c).isSome

/-- The nearest number with at most `bits` significant bits, the even one of two. -/
def roundToBits (bits n : Nat) : Nat :=
  let length := Nat.log2 n + 1
  if length ≤ bits then n
  else
    let unit := Nat.pow 2 (length - bits)
    let quotient := n / unit
    let rest := n % unit
    if unit < 2 * rest ∨ (unit = 2 * rest ∧ quotient % 2 = 1) then (quotient + 1) * unit
    else quotient * unit

/-- A significand and a power of ten. -/
structure Decimal where
  significand : Nat
  exponent : Int
deriving DecidableEq, Repr

namespace Decimal

/-- The largest power of ten that a double can hold. -/
def maxExponent : Nat := 308

/-- The smallest number that rounds to infinity: half a unit beyond the largest double. -/
def infinityThreshold : Nat := Nat.pow 2 1024 - Nat.pow 2 970

/-- The value is too large for a double. -/
def overflows (d : Decimal) : Bool :=
  match d.exponent with
  | .negSucc _ => false
  | .ofNat e =>
    d.significand != 0
      && (decide (maxExponent < e)
        || decide (infinityThreshold ≤
            roundToBits 53 d.significand * roundToBits 53 (Nat.pow 10 e)))

end Decimal

namespace Reader

/-- Takes digits into a significand as long as it fits into 64 bits. Gives the significand and the
number of digits taken. -/
def significand (start : Nat) : Reader (Nat × Nat) := fun text => .ok (go start 0 text)
where
  go (value taken : Nat) : List Char → (Nat × Nat) × List Char
    | [] => ((value, taken), [])
    | c :: rest =>
      match digitValue? c with
      | none => ((value, taken), c :: rest)
      | some d =>
        if value * 10 + d < Nat.pow 2 64 then go (value * 10 + d) (taken + 1) rest
        else ((value, taken), c :: rest)

/-- Takes the digits that come next, and gives them. -/
def digits : Reader (List Char) := fun text => .ok (text.takeWhile isDigit, text.dropWhile isDigit)

/-- The number that decimal digits make. -/
def digitsValue (ds : List Char) : Nat :=
  ds.foldl (fun n c => n * 10 + (digitValue? c).getD 0) 0

/-- A decimal that is no natural number, unless it overflows. -/
def inexact (d : Decimal) : Reader Numeral :=
  if d.overflows then fail .malformed else pure .other

/-- The rest of a numeral after the letter of its exponent. -/
def exponentTail (d : Decimal) : Reader Numeral := do
  let negative ←
    match ← peek with
    | some '+' => do
      advance
      pure false
    | some '-' => do
      advance
      pure true
    | _ => pure false
  match ← digits with
  | [] =>
    match ← peek with
    | none => fail .truncated
    | some _ => fail .malformed
  | ds =>
    let shift : Int := digitsValue ds
    inexact { d with exponent := if negative then d.exponent - shift else d.exponent + shift }

/-- An exponent, if one follows. -/
def optionalExponent (d : Decimal) : Reader Numeral := do
  match ← peek with
  | some 'e' | some 'E' =>
    advance
    exponentTail d
  | _ => inexact d

/-- The rest of a numeral after its point. -/
def fractionTail (d : Decimal) : Reader Numeral := do
  let (value, taken) ← significand d.significand
  let beyond ← digits
  if taken = 0 ∧ beyond = [] then
    match ← peek with
    | none => fail .truncated
    | some _ => fail .malformed
  else optionalExponent ⟨value, d.exponent - taken⟩

/-- The rest of a numeral after its integer part, of which `beyond` digits did not fit. -/
def integerTail (negative : Bool) (value beyond : Nat) : Reader Numeral := do
  match ← peek with
  | some '.' =>
    advance
    fractionTail ⟨value, beyond⟩
  | some 'e' | some 'E' =>
    advance
    exponentTail ⟨value, beyond⟩
  | _ =>
    if beyond = 0 then return if negative then .other else .natural value
    else inexact ⟨value, beyond⟩

/-- A numeral from after its sign. -/
def unsignedNumeral (negative : Bool) : Reader Numeral := do
  match ← peek with
  | none => fail .truncated
  | some '0' =>
    advance
    match ← peek with
    | some c => if isDigit c then fail .malformed else integerTail negative 0 0
    | none => integerTail negative 0 0
  | some c =>
    if isDigit c then
      let (value, _) ← significand 0
      let beyond ← digits
      integerTail negative value beyond.length
    else fail .malformed

/-- A numeral, which begins with a minus sign or a digit. -/
def numeral : Reader Numeral := do
  match ← peek with
  | some '-' =>
    advance
    unsignedNumeral true
  | _ => unsignedNumeral false

/-! ### Numbers whose value does not matter -/

/-- Goes past digits, of which there has to be one. -/
def skipDigits : Reader Unit := do
  match ← digits with
  | [] => fail .malformed
  | _ => return

/-- Goes past an exponent, if one follows. -/
def skipExponent : Reader Unit := do
  match ← peek with
  | some 'e' | some 'E' =>
    advance
    match ← peek with
    | some '+' | some '-' => advance
    | _ => pure ()
    skipDigits
  | _ => return

/-- Goes past a numeral. What is missing is malformed here, also at the end of the text. -/
def skipNumeral : Reader Unit := do
  match ← peek with
  | some '-' => advance
  | _ => pure ()
  match ← peek with
  | some '0' =>
    advance
    match ← peek with
    | some c => if isDigit c then fail .malformed
    | none => pure ()
  | _ => skipDigits
  match ← peek with
  | some '.' =>
    advance
    skipDigits
  | _ => pure ()
  skipExponent

end Reader

end NameResolution.Json
