import NameResolution.Text.Dotted

/-!
# Type tables

The classes, interfaces and enums of a program, numbered in the order in which they were added. A
nested type names the type that encloses it, by a number that may be of a type added later. The
chain of enclosing types leads from a type to its root; it stops at a number that the table does
not have.
-/

namespace NameResolution

/-- The number of a type in its table. -/
abbrev TypeId := Nat

/-- How traces write the number of a type. -/
def TypeId.inspect (id : TypeId) : String := "TypeId(" ++ toString id ++ ")"

/-- A declared type. Package and output namespace matter on root types only. -/
structure TypeDecl where
  simpleName : String
  package : Option String
  enclosing : Option TypeId
  outputNamespace : Option String
deriving DecidableEq, Repr

/-- The declared types by number. -/
structure TypeTable where
  types : Array TypeDecl
deriving DecidableEq, Repr

namespace TypeTable

/-- The table without types. -/
def empty : TypeTable := ⟨#[]⟩

/-- The number of types. -/
def size (table : TypeTable) : Nat := table.types.size

/-- There are no types. -/
def isEmpty (table : TypeTable) : Bool := table.types.isEmpty

/-- The type of a number. -/
def get? (table : TypeTable) (id : TypeId) : Option TypeDecl := table.types[id]?

/-- Adds a type, and gives its number. -/
def add (table : TypeTable) (decl : TypeDecl) : TypeId × TypeTable :=
  (table.size, ⟨table.types.push decl⟩)

/-- Adds a type that no type encloses. -/
def addRoot (table : TypeTable) (package : Option String) (simpleName : String)
    (outputNamespace : Option String) : TypeId × TypeTable :=
  table.add ⟨simpleName, package, none, outputNamespace⟩

/-- Adds a member type of `enclosing`. -/
def addNested (table : TypeTable) (enclosing : TypeId) (simpleName : String) :
    TypeId × TypeTable :=
  table.add ⟨simpleName, none, some enclosing, none⟩

/-- At most `steps` types of the chain from a type outward. -/
def chainFrom (table : TypeTable) : Nat → TypeId → List (TypeId × TypeDecl)
  | 0, _ => []
  | steps + 1, id =>
    match table.get? id with
    | none => []
    | some decl =>
      (id, decl) ::
        match decl.enclosing with
        | none => []
        | some outer => chainFrom table steps outer

/-- A type, then each enclosing type outward. A chain without a cycle meets no type twice, so it
has at most as many types as the table. -/
def enclosingChain (table : TypeTable) (id : TypeId) : List (TypeId × TypeDecl) :=
  table.chainFrom table.size id

/-- The outermost type around a type, which may be the type itself. -/
def rootOf? (table : TypeTable) (id : TypeId) : Option TypeId :=
  (table.enclosingChain id).getLast?.map Prod.fst

/-- The simple names from the root down to a type, and the declaration of the root. -/
def nestingPath? (table : TypeTable) (id : TypeId) : Option (String × TypeDecl) :=
  let chain := table.enclosingChain id
  chain.getLast?.map fun (_, root) =>
    (Dotted.join (chain.reverse.map (·.2.simpleName)), root)

/-- A path below an optional namespace. -/
def below (ns : Option String) (path : String) : String :=
  match ns with
  | some ns => Dotted.member ns path
  | none => path

/-- The dotted name of a type in the source language, `package.Outer.Inner`. -/
def sourceName? (table : TypeTable) (id : TypeId) : Option String :=
  (table.nestingPath? id).map fun (path, root) => below root.package path

/-- The dotted name of a type in the output, `namespace.Outer.Inner`. -/
def outputName? (table : TypeTable) (id : TypeId) : Option String :=
  (table.nestingPath? id).map fun (path, root) => below root.outputNamespace path

theorem chainFrom_of_get?_eq_none {table : TypeTable} {id : TypeId} (h : table.get? id = none)
    (steps : Nat) : table.chainFrom steps id = [] := by
  cases steps <;> simp [chainFrom, h]

theorem get?_add (table : TypeTable) (decl : TypeDecl) (id : TypeId) :
    (table.add decl).2.get? id = if id = table.size then some decl else table.get? id := by
  simp only [add, get?, size, Array.getElem?_push]
  rfl

end TypeTable

end NameResolution
