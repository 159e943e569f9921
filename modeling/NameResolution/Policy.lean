import NameResolution.Collection.OrderedSet
import NameResolution.ResolveError
import NameResolution.Text.Dotted

/-!
# Resolution policies

Which qualified names a program may use: `this`, the allowed classes of the base library, and
everything inside an allowed namespace. Namespaces match by whole segments, so `a.b` admits `a.b`
and `a.b.C` but not `a.bc` (`accepts_iff`).

A policy is set up by a list of steps (`Policy.build`), which take the dots off the end of a
namespace and leave out empty and repeated ones.
-/

namespace NameResolution

/-- The namespace of the library that every program imports. -/
def defaultBaseNamespace : String := "java.lang"

/-- The classes of that library that have a counterpart at run time. -/
def defaultBaseClasses : List String :=
  ["Object", "String", "Number", "Boolean", "Byte", "Short", "Integer", "Long", "Float", "Double",
    "Character", "CharSequence", "Math", "Iterable", "Comparable", "Runnable", "Void", "Throwable",
    "Exception", "RuntimeException", "Error", "IllegalArgumentException", "IllegalStateException",
    "UnsupportedOperationException", "IndexOutOfBoundsException", "NullPointerException",
    "Override", "Deprecated", "SuppressWarnings", "FunctionalInterface"]

/-- The names that a program may use. -/
structure Policy where
  baseNamespace : String
  baseClasses : OrderedSet String
  namespaces : List String

namespace Policy

/-- The usual base library with none of its classes allowed, and no namespaces. -/
def default : Policy := ⟨defaultBaseNamespace, .empty, []⟩

instance : Inhabited Policy := ⟨default⟩

/-- The name lies in the base library. -/
def isBaseLibrary (p : Policy) (name : String) : Bool :=
  (Dotted.stripNamespace p.baseNamespace name).isSome

/-- The name is an allowed class of the base library. -/
def acceptsBaseClass (p : Policy) (name : String) : Bool :=
  match Dotted.stripNamespace p.baseNamespace name with
  | some cls => decide (cls ∈ p.baseClasses)
  | none => false

/-- The name is the namespace or lies inside it. -/
def isWithin (name ns : String) : Bool := name == ns || (Dotted.stripNamespace ns name).isSome

/-- The program may use the name. -/
def accepts (p : Policy) (name : String) : Bool :=
  name == "this" || p.acceptsBaseClass name || p.namespaces.any (isWithin name)

/-- Refuses a name that the program may not use. -/
def check (p : Policy) (position : SourcePosition) (name : String) : Except ResolveError Unit :=
  if p.accepts name then .ok () else .error (.forbiddenName position name)

/-- The same policy, whatever the order of the base classes. -/
def same (p q : Policy) : Bool :=
  p.baseNamespace == q.baseNamespace && p.baseClasses.sameMembers q.baseClasses
    && p.namespaces == q.namespaces

theorem accepts_iff (p : Policy) (name : String) :
    p.accepts name = true ↔
      name = "this" ∨ p.acceptsBaseClass name = true ∨
        ∃ ns ∈ p.namespaces, isWithin name ns = true := by
  simp [accepts, or_assoc]

theorem check_eq_ok_iff (p : Policy) (position : SourcePosition) (name : String) :
    p.check position name = .ok () ↔ p.accepts name = true := by
  unfold check
  split <;> simp_all

end Policy

/-! ## Setting a policy up -/

/-- One step of setting a policy up. -/
inductive PolicyStep where
  | baseNamespace (ns : String)
  | allowNamespace (ns : String)
  | allowNamespaces (nss : List String)
  | allowBaseClass (cls : String)
  | allowBaseClasses (classes : List String)
  | allowDefaultBaseClasses
deriving DecidableEq, Repr

namespace Policy

/-- Allows a namespace, written without final dots, unless it is empty or known. -/
def allowNamespace (p : Policy) (ns : String) : Policy :=
  let ns := Dotted.trimDots ns
  if ns = "" ∨ ns ∈ p.namespaces then p else { p with namespaces := p.namespaces ++ [ns] }

/-- Allows classes of the base library. -/
def allowBaseClasses (p : Policy) (classes : List String) : Policy :=
  { p with baseClasses := p.baseClasses.insertAll classes }

/-- Takes one step. -/
def step (p : Policy) : PolicyStep → Policy
  | .baseNamespace ns => { p with baseNamespace := Dotted.trimDots ns }
  | .allowNamespace ns => p.allowNamespace ns
  | .allowNamespaces nss => nss.foldl allowNamespace p
  | .allowBaseClass cls => p.allowBaseClasses [cls]
  | .allowBaseClasses classes => p.allowBaseClasses classes
  | .allowDefaultBaseClasses => p.allowBaseClasses defaultBaseClasses

/-- The policy that a list of steps sets up. -/
def build (steps : List PolicyStep) : Policy := steps.foldl step default

end Policy

end NameResolution
