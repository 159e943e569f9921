import NameResolution.Json.Shape
import NameResolution.Json.Write
import NameResolution.Policy

/-!
# The written form of policies

A policy is written as an object of base namespace, base classes and namespaces. In reading, what is
missing is as in `Policy.default`, a class that comes again counts once, and namespaces stay as they
are written.
-/

namespace NameResolution.Policy

/-- A list of strings. -/
def writeStrings (l : List String) : List Char := Json.writeArray (l.map Json.writeString)

/-- The written form, as in
`{"baseNamespace":"","allowedBaseClasses":[],"allowedNamespaces":[]}`. -/
def writeJson (p : Policy) : List Char :=
  Json.writeObject
    [("baseNamespace", Json.writeString p.baseNamespace),
      ("allowedBaseClasses", writeStrings p.baseClasses.toList),
      ("allowedNamespaces", writeStrings p.namespaces)]

/-- What has been read of a policy. -/
structure Draft where
  baseNamespace : Option String
  baseClasses : Option (List String)
  namespaces : Option (List String)
deriving DecidableEq, Repr

/-- The fields of a policy in the order of its array form. -/
def fields : List (Json.Reader.Field Draft) :=
  [⟨"baseNamespace", fun d => d.baseNamespace.isSome,
      fun d => return { d with baseNamespace := some (← Json.Reader.string) }⟩,
    ⟨"allowedBaseClasses", fun d => d.baseClasses.isSome,
      fun d => return { d with baseClasses := some (← Json.Reader.list .string) }⟩,
    ⟨"allowedNamespaces", fun d => d.namespaces.isSome,
      fun d => return { d with namespaces := some (← Json.Reader.list .string) }⟩]

/-- The policy of a draft, with the defaults for what was not read. -/
def ofDraft (d : Draft) : Policy where
  baseNamespace := d.baseNamespace.getD default.baseNamespace
  baseClasses := (d.baseClasses.map OrderedSet.ofList).getD default.baseClasses
  namespaces := d.namespaces.getD default.namespaces

/-- Reads a policy. -/
def readJson : Json.Reader Policy := do
  return ofDraft (← Json.Reader.record fields ⟨none, none, none⟩)

/-- The written form as text. -/
def toJson (p : Policy) : String := String.ofList p.writeJson

/-- The policy that a text is the written form of. -/
def ofJson (text : String) : Except Json.ReadError Policy := Json.Reader.readAll readJson text

end NameResolution.Policy
