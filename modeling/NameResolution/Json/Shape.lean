import NameResolution.Json.Skip

/-!
# Values of a given shape

Readers for the shapes that the written forms are made of: 32-bit numbers, strings, lists, pairs
and records. A record is an object with one value for each of its fields, in any order and with any
other keys in between, or the array of these values in the order of the fields. A value of another
shape is mismatched, once it is known not to be malformed.
-/

namespace NameResolution.Json.Reader

variable {α β σ : Type}

/-- Refuses the value that comes next for its shape. A scalar is read first, since it may be
malformed. -/
def wrongShape : Reader α := do
  match ← peekToken with
  | none => fail .truncated
  | some c =>
    match c with
    | 'n' => word "null".toList
    | 't' => word "true".toList
    | 'f' => word "false".toList
    | '"' =>
      advance
      discard stringTail
    | '[' | '{' => pure ()
    | c => if c = '-' || isDigit c then discard numeral else fail .malformed
    fail .mismatched

/-- A number below `2 ^ 32`. -/
def word32 : Reader Nat := do
  match ← peekToken with
  | none => fail .truncated
  | some c =>
    if c = '-' || isDigit c then
      match ← numeral with
      | .natural n => if n < Nat.pow 2 32 then return n else fail .mismatched
      | .other => fail .mismatched
    else wrongShape

/-- A string. -/
def string : Reader String := do
  match ← peekToken with
  | none => fail .truncated
  | some c =>
    if c = '"' then
      advance
      stringTail
    else wrongShape

/-- The word `null`. -/
def null : Reader Unit := do
  match ← peekToken with
  | none => fail .truncated
  | some c => if c = 'n' then word "null".toList else wrongShape

/-! ## Lists -/

/-- The items of an array from after its opening bracket or an item. -/
def items (item : Reader α) : Nat → Bool → Reader (List α)
  | 0, _ => fail .truncated
  | steps + 1, first => do
    if ← another ']' first then
      let a ← item
      let rest ← items item steps false
      return a :: rest
    else return []

/-- The items from after the opening bracket. An item takes something off the text, so a text
allows no more items than it has characters. -/
def itemsTail (item : Reader α) : Reader (List α) := fun text =>
  items item (text.length + 1) true text

/-- An array of any length. -/
def list (item : Reader α) : Reader (List α) := do
  match ← peekToken with
  | none => fail .truncated
  | some c =>
    if c = '[' then
      advance
      itemsTail item
    else wrongShape

/-! ## Records -/

/-- A field of a record that is read into a draft of type `σ`. -/
structure Field (σ : Type) where
  key : String
  isRead : σ → Bool
  read : σ → Reader σ

/-- The values of fields in their order, from after the opening bracket. An array may end early,
which leaves the other fields unread. -/
def positional : List (Field σ) → Bool → σ → Reader σ
  | [], _, draft => do
    token ']'
    return draft
  | field :: fields, first, draft => do
    if ← another ']' first then
      let draft ← field.read draft
      positional fields false draft
    else return draft

/-- The members of an object from after its opening bracket or a member. A field may be read once;
other keys are skipped. -/
def members (fields : List (Field σ)) : Nat → Bool → σ → Reader σ
  | 0, _, _ => fail .truncated
  | steps + 1, first, draft => do
    if ← another '}' first then
      token '"'
      let key ← stringTail
      match fields.find? (·.key == key) with
      | some field =>
        if field.isRead draft then fail .mismatched
        token ':'
        let draft ← field.read draft
        members fields steps false draft
      | none =>
        token ':'
        skipValue
        members fields steps false draft
    else return draft

/-- The members from after the opening bracket, each of which takes something off the text. -/
def membersTail (fields : List (Field σ)) (draft : σ) : Reader σ := fun text =>
  members fields (text.length + 1) true draft text

/-- A value that may be missing in the end. -/
def required : Option α → Reader α
  | some a => pure a
  | none => fail .mismatched

/-- A record, as an object or as an array, read into a draft. -/
def record (fields : List (Field σ)) (draft : σ) : Reader σ := do
  match ← peekToken with
  | none => fail .truncated
  | some c =>
    if c = '[' then
      advance
      positional fields true draft
    else if c = '{' then
      advance
      membersTail fields draft
    else wrongShape

/-- The two fields of a record that has no others. -/
def twoFields (key₁ : String) (first : Reader α) (key₂ : String) (second : Reader β) :
    List (Field (Option α × Option β)) :=
  [⟨key₁, fun draft => draft.1.isSome, fun draft => return (some (← first), draft.2)⟩,
    ⟨key₂, fun draft => draft.2.isSome, fun draft => return (draft.1, some (← second))⟩]

/-- A record of two fields. -/
def record₂ (key₁ : String) (first : Reader α) (key₂ : String) (second : Reader β) :
    Reader (α × β) := do
  let (a, b) ← record (twoFields key₁ first key₂ second) (none, none)
  return (← required a, ← required b)

/-- An array of two values. -/
def pair (first : Reader α) (second : Reader β) : Reader (α × β) := do
  match ← peekToken with
  | none => fail .truncated
  | some c =>
    if c = '[' then
      advance
      let (a, b) ← positional (twoFields "" first "" second) true (none, none)
      return (← required a, ← required b)
    else wrongShape

end NameResolution.Json.Reader
