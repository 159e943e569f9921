/-!
# Reading JSON

A reader takes a value off the front of a text. It reads from left to right and stops at the first
problem, which is one of three (`ReadError`). Blanks may stand before every token.
-/

namespace NameResolution.Json

/-- Why a text is refused. -/
inductive ReadError where
  /-- The text is no JSON. -/
  | malformed
  /-- The text ends too early. -/
  | truncated
  /-- The value has another shape than the one asked for. -/
  | mismatched
deriving DecidableEq, Repr

/-- Takes a value off the front of a text. -/
abbrev Reader (α : Type) := StateT (List Char) (Except ReadError) α

namespace Reader

variable {α : Type}

/-- Refuses the text. -/
def fail (e : ReadError) : Reader α := fun _ => .error e

/-- The blanks that may stand between tokens. -/
def isBlank (c : Char) : Bool := c == ' ' || c == '\t' || c == '\n' || c == '\r'

/-- The next character, which stays where it is. -/
def peek : Reader (Option Char) := fun text => .ok (text.head?, text)

/-- Skips blanks, then gives the next character, which stays where it is. -/
def peekToken : Reader (Option Char) := fun text =>
  let rest := text.dropWhile isBlank
  .ok (rest.head?, rest)

/-- Takes the next character. -/
def next? : Reader (Option Char) := fun text => .ok (text.head?, text.tail)

/-- Goes past the next character. -/
def advance : Reader Unit := fun text => .ok ((), text.tail)

/-- Skips blanks and goes past `c`, which has to come next. -/
def token (c : Char) : Reader Unit := do
  match ← peekToken with
  | none => fail .truncated
  | some c' => if c' = c then advance else fail .malformed

/-- Goes past the characters of a word. -/
def word : List Char → Reader Unit
  | [] => pure ()
  | c :: rest => do
    match ← next? with
    | none => fail .truncated
    | some c' => if c' = c then word rest else fail .malformed

/-- In a list up to `close`, whether an element follows. Goes past the comma before an element that
is not the first, and past `close` at the end. -/
def another (close : Char) (first : Bool) : Reader Bool := do
  match ← peekToken with
  | none => fail .truncated
  | some c =>
    if c = close then
      advance
      return false
    else if first then return true
    else if c = ',' then
      advance
      match ← peekToken with
      | none => fail .truncated
      | some c => if c = close then fail .malformed else return true
    else fail .malformed

/-- Reads a whole text: after the value only blanks may follow. -/
def readAll (reader : Reader α) (text : String) : Except ReadError α :=
  match reader text.toList with
  | .error e => .error e
  | .ok (value, rest) =>
    if rest.all isBlank then .ok value else .error .malformed

end Reader

end NameResolution.Json
