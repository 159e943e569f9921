import NameResolution.Json.Quoted

/-!
# Writing JSON

Written forms are compact: no blanks, and the members of an object in the order in which they are
given.
-/

namespace NameResolution.Json

/-- The parts with commas between them. -/
def separated : List (List Char) → List Char
  | [] => []
  | [part] => part
  | part :: next :: rest => part ++ ',' :: separated (next :: rest)

/-- An array of written values. -/
def writeArray (values : List (List Char)) : List Char := '[' :: (separated values ++ [']'])

/-- An object of keys and written values. -/
def writeObject (members : List (String × List Char)) : List Char :=
  '{' :: (separated (members.map fun m => writeString m.1 ++ ':' :: m.2) ++ ['}'])

/-- A natural number in decimal digits. -/
def writeNat (n : Nat) : List Char := Nat.toDigits 10 n

end NameResolution.Json
