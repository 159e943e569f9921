import NameResolution.Position

/-!
# Hard failures of name resolution

A name that resolves to nothing is skipped. What stops a file is one of four causes: two faults of
the program, and two disagreements between the trees that the caller built (`isInternal`).
-/

namespace NameResolution

/-- The kind of member reached through an outer instance. -/
inductive MemberAccess where
  | method
  | field
deriving DecidableEq, Repr

/-- How a message names such members. -/
def MemberAccess.plural : MemberAccess → String
  | .method => "methods"
  | .field => "fields"

/-- Why the resolution of a file stopped. -/
inductive ResolveError where
  /-- A name that is reachable only through an enclosing instance. -/
  | outerInstance (position : SourcePosition) (name : String) (access : MemberAccess)
  /-- A qualified name outside the allowed namespaces. -/
  | forbiddenName (position : SourcePosition) (name : String)
  /-- The walk entered more contours than the scope has children. -/
  | scopeMismatch (position : SourcePosition) (scope : String) (children : Nat)
  /-- Two names of one table at one position. -/
  | repeatedPosition (position : SourcePosition) (existing name : String)
deriving DecidableEq, Repr

namespace ResolveError

/-- Where the offending occurrence starts. -/
def position : ResolveError → SourcePosition
  | outerInstance p _ _ => p
  | forbiddenName p _ => p
  | scopeMismatch p _ _ => p
  | repeatedPosition p _ _ => p

/-- The trees disagree, rather than the program being at fault. -/
def isInternal : ResolveError → Bool
  | outerInstance .. => false
  | forbiddenName .. => false
  | scopeMismatch .. => true
  | repeatedPosition .. => true

/-- The stable code of the cause. -/
def code : ResolveError → String
  | outerInstance .. => "E0101"
  | forbiddenName .. => "E0102"
  | scopeMismatch .. => "E0901"
  | repeatedPosition .. => "E0902"

/-- A text in quotation marks. -/
def quoted (text : String) : String := "`" ++ text ++ "`"

/-- What is reported to people. -/
def message : ResolveError → String
  | outerInstance _ name access =>
    quoted name ++ ": in JavaScript you cannot access " ++ access.plural
      ++ " of the outer type from a nested scope. Define a local alias outside the nested function "
      ++ "(" ++ quoted "var that = this;" ++ ") and access the " ++ access.plural ++ " through it"
  | forbiddenName _ name =>
    "the qualified name " ++ quoted name ++ " is not part of the allowed packages"
  | scopeMismatch _ scope children =>
    "scope tree out of sync with the syntax walk: scope " ++ quoted scope ++ " has only "
      ++ toString children ++ " child scope(s)"
  | repeatedPosition _ existing name =>
    "position resolved twice: " ++ quoted existing ++ ", then " ++ quoted name

end ResolveError

end NameResolution
