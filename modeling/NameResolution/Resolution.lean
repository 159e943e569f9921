import NameResolution.Collection.OrderedMap
import NameResolution.Name
import NameResolution.ResolveError

/-!
# Resolutions

What the occurrences of a file denote, by position: one table for calls without a receiver and one
for identifiers, each in the order of the walk. A position is recorded once in each table; a second
name for it is an error (`record_of_find?_eq_some`), not a replacement.
-/

namespace NameResolution

/-- What an occurrence denotes. -/
inductive Occurrence where
  | method (name : QualifiedName .method)
  | identifier (name : QualifiedName .identifier)
deriving DecidableEq, Repr

/-- The names of one table by position. -/
abbrev NameTable (kind : NameType) := OrderedMap SourcePosition (QualifiedName kind)

namespace NameTable

variable {kind : NameType}

/-- Adds the name of a position that has none. -/
def record (table : NameTable kind) (position : SourcePosition) (name : QualifiedName kind) :
    Except ResolveError (NameTable kind) :=
  match table.find? position with
  | some existing => .error (.repeatedPosition position existing.name name.name)
  | none => .ok (table.insert position name)

theorem record_of_find?_eq_none {table : NameTable kind} {position : SourcePosition}
    (name : QualifiedName kind) (h : table.find? position = none) :
    table.record position name = .ok (table.insert position name) := by
  simp [record, h]

theorem record_of_find?_eq_some {table : NameTable kind} {position : SourcePosition}
    {existing : QualifiedName kind} (name : QualifiedName kind)
    (h : table.find? position = some existing) :
    table.record position name =
      .error (.repeatedPosition position existing.name name.name) := by
  simp [record, h]

end NameTable

/-- The names of the occurrences of one file. -/
structure Resolution where
  methods : NameTable .method
  identifiers : NameTable .identifier

namespace Resolution

/-- Nothing is resolved. -/
def empty : Resolution := ⟨.empty, .empty⟩

instance : Inhabited Resolution := ⟨empty⟩

/-- The method called at a position. -/
def methodAt? (r : Resolution) (position : SourcePosition) : Option (QualifiedName .method) :=
  r.methods.find? position

/-- The identifier at a position. -/
def identifierAt? (r : Resolution) (position : SourcePosition) :
    Option (QualifiedName .identifier) :=
  r.identifiers.find? position

/-- The number of entries in both tables. -/
def size (r : Resolution) : Nat := r.methods.size + r.identifiers.size

/-- Both tables are empty. -/
def isEmpty (r : Resolution) : Bool := r.methods.isEmpty && r.identifiers.isEmpty

/-- The same entries, in any order. -/
def same (r s : Resolution) : Bool :=
  r.methods.sameEntries s.methods && r.identifiers.sameEntries s.identifiers

/-- Adds what an occurrence denotes to its table. -/
def record (r : Resolution) (position : SourcePosition) :
    Occurrence → Except ResolveError Resolution
  | .method name => (r.methods.record position name).map ({ r with methods := · })
  | .identifier name => (r.identifiers.record position name).map ({ r with identifiers := · })

end Resolution

end NameResolution
