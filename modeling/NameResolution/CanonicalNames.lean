import NameResolution.Collection.OrderedSet
import NameResolution.Policy
import NameResolution.TypeTable

/-!
# Canonical names

The names under which generated code addresses types. Asking for the name of a type also registers
its root type by source name, so that the emitter knows what a file depends on; roots inside the
base library are left out.
-/

namespace NameResolution

/-- A type as the emitter sees it. -/
inductive EmittedType where
  /-- A type of the table. -/
  | declared (id : TypeId)
  /-- Anything else, printed as it is. -/
  | other (text : String)
deriving DecidableEq, Repr

/-- Gives canonical names and registers the root types they touch. -/
structure CanonicalNames where
  types : TypeTable
  baseNamespace : String
  /-- Source names of the registered roots, in the order in which they were first asked for. -/
  roots : OrderedSet String

namespace CanonicalNames

/-- Nothing registered yet; roots inside `baseNamespace` never will be. -/
def withBase (types : TypeTable) (baseNamespace : String) : CanonicalNames :=
  ⟨types, baseNamespace, .empty⟩

/-- Nothing registered yet, with the usual base library. -/
def new (types : TypeTable) : CanonicalNames := withBase types defaultBaseNamespace

/-- The source name begins with the base namespace and a dot. -/
def isInBase (names : CanonicalNames) (sourceName : String) : Bool :=
  (Dotted.stripStart (names.baseNamespace ++ ".") sourceName).isSome

/-- Registers a root under its source name. -/
def register (names : CanonicalNames) (root : TypeId) : CanonicalNames :=
  match names.types.sourceName? root with
  | none => names
  | some sourceName =>
    if names.isInBase sourceName then names
    else { names with roots := names.roots.insert sourceName }

/-- The canonical name of a declared type; the table has to have it. -/
def nameOf? (names : CanonicalNames) (id : TypeId) : Option String × CanonicalNames :=
  match names.types.outputName? id, names.types.rootOf? id with
  | some name, some root => (some name, names.register root)
  | name, _ => (name, names)

/-- The canonical name of any type. -/
def emittedName? (names : CanonicalNames) : EmittedType → Option String × CanonicalNames
  | .declared id => names.nameOf? id
  | .other text => (some text, names)

end CanonicalNames

end NameResolution
