import NameResolution.Json.Number
import NameResolution.Json.Quoted

/-!
# Values that do not matter

Goes past one value of any shape, as under a key that nobody asked for. Open brackets are kept on a
stack, so values may nest to any depth. Every step takes something off the text, so a text allows
no more steps than it has characters, and one to see its end.
-/

namespace NameResolution.Json.Reader

/-- A bracket that has been opened. -/
inductive Bracket where
  | array
  | object
deriving DecidableEq, Repr

/-- The bracket that closes it. -/
def Bracket.close : Bracket → Char
  | .array => ']'
  | .object => '}'

/-- What comes next inside the open brackets. -/
inductive Expectation where
  | value
  | key
  | afterValue
deriving DecidableEq, Repr

/-- What comes after an opening bracket or a comma. -/
def Bracket.element : Bracket → Expectation
  | .array => .value
  | .object => .key

/-- Goes past a string from after its opening quotation mark. -/
def skipStringTail : Reader Unit := skipChars

/-- Goes past an opening bracket, and past the closing one if that follows at once. Gives whether
the bracket stays open. -/
def skipOpening (bracket : Bracket) : Reader Bool := do
  advance
  match ← peekToken with
  | none => fail .truncated
  | some c =>
    if c = bracket.close then
      advance
      return false
    else return true

/-- Goes past a scalar that begins with `c`. -/
def skipScalar (c : Char) : Reader Unit := do
  match c with
  | 'n' => word "null".toList
  | 't' => word "true".toList
  | 'f' => word "false".toList
  | '"' =>
    advance
    skipStringTail
  | c => if c = '-' || isDigit c then skipNumeral else fail .malformed

/-- Goes past the rest of a value inside open brackets. -/
def skipInside : Nat → Expectation → List Bracket → Reader Unit
  | 0, _, _ => fail .truncated
  | _ + 1, .afterValue, [] => pure ()
  | steps + 1, .afterValue, bracket :: outer => do
    match ← peekToken with
    | none => fail .truncated
    | some c =>
      if c = ',' then
        advance
        skipInside steps bracket.element (bracket :: outer)
      else if c = bracket.close then
        advance
        skipInside steps .afterValue outer
      else fail .malformed
  | steps + 1, .key, brackets => do
    token '"'
    skipStringTail
    token ':'
    skipInside steps .value brackets
  | steps + 1, .value, brackets => do
    match ← peekToken with
    | none => fail .truncated
    | some c =>
      if c = '[' then
        if ← skipOpening .array then skipInside steps .value (.array :: brackets)
        else skipInside steps .afterValue brackets
      else if c = '{' then
        if ← skipOpening .object then skipInside steps .key (.object :: brackets)
        else skipInside steps .afterValue brackets
      else
        skipScalar c
        skipInside steps .afterValue brackets

/-- Goes past one value. -/
def skipValue : Reader Unit := fun text => skipInside (text.length + 1) .value [] text

end NameResolution.Json.Reader
