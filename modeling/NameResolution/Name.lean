/-!
# Resolved names

An occurrence resolves to a qualified name and to where that name was found: in an ordinary scope,
or only through an enclosing instance, which the output language cannot express.
-/

namespace NameResolution

/-- The three things a name can denote. Each has its own table in a scope. -/
inductive NameType where
  /-- A method called without a receiver. -/
  | method
  /-- A variable, parameter or field. -/
  | identifier
  /-- A class, interface or enum. -/
  | type
deriving DecidableEq, Repr

/-- How traces write a kind of name. -/
def NameType.label : NameType → String
  | .method => "Method"
  | .identifier => "Identifier"
  | .type => "Type"

/-- Where a name was found. -/
inductive Origin where
  /-- In the scope of this name. -/
  | scope (name : String)
  /-- In an outer type, reachable only through an instance of it. -/
  | enclosing
deriving DecidableEq, Repr

namespace Origin

/-- The name needs an enclosing instance. -/
def isEnclosing : Origin → Bool
  | .scope _ => false
  | .enclosing => true

/-- The name of the ordinary scope. -/
def scopeName? : Origin → Option String
  | .scope name => some name
  | .enclosing => none

instance : ToString Origin :=
  ⟨fun
    | .scope name => name
    | .enclosing => "<enclosing instance>"⟩

end Origin

/-- The dotted output name of an occurrence, and where it was found. -/
structure QualifiedName (kind : NameType) where
  name : String
  origin : Origin
deriving DecidableEq, Repr

namespace QualifiedName

variable {kind : NameType}

/-- The name of the scope the name was found in, if it is an ordinary one. -/
def scopeName? (q : QualifiedName kind) : Option String := q.origin.scopeName?

/-- The name needs an enclosing instance. -/
def isEnclosing (q : QualifiedName kind) : Bool := q.origin.isEnclosing

/-- What the name denotes. -/
def nameType (_ : QualifiedName kind) : NameType := kind

instance : ToString (QualifiedName kind) := ⟨fun q => q.name⟩

/-- The form used in traces. -/
def inspect (q : QualifiedName kind) : String :=
  kind.label ++ "(" ++ q.name ++ " in " ++ toString q.origin ++ ")"

end QualifiedName

end NameResolution
