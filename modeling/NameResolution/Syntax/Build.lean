import NameResolution.Syntax.Node

/-!
# Building syntax trees

One function for each form of source text, which puts the children where the tree expects them.
`Node.path` reads a dotted text: each segment selects a field of what stands before it, but a
segment `this` turns all of it into the qualifier of that `this`.
-/

namespace NameResolution.Node

/-- A file; it starts where its text starts. -/
def compilationUnit (children : List Node) : Node := ⟨.compilationUnit, .origin, children⟩

/-- A class with its members. -/
def classDecl (start : LineCol) (name : String) (hasSuperclass : Bool) (members : List Node) :
    Node :=
  ⟨.classDecl name false hasSuperclass, start, members⟩

/-- An interface with its members. -/
def interfaceDecl (start : LineCol) (name : String) (members : List Node) : Node :=
  ⟨.classDecl name true false, start, members⟩

/-- An enum with its members. -/
def enumDecl (start : LineCol) (name : String) (members : List Node) : Node :=
  ⟨.enumDecl name, start, members⟩

/-- A method with its parameters and body. -/
def methodDecl (start : LineCol) (name : String) (children : List Node) : Node :=
  ⟨.methodDecl name, start, children⟩

/-- A constructor with its parameters and body. -/
def constructorDecl (start : LineCol) (children : List Node) : Node :=
  ⟨.constructorDecl, start, children⟩

/-- A block of statements. -/
def block (start : LineCol) (children : List Node) : Node := ⟨.block, start, children⟩

/-- A simple name. -/
def simpleName (start : LineCol) (ident : String) : Node := ⟨.name ident, start, []⟩

/-- The keyword `this`, or `Outer.this`. -/
def thisRef (start : LineCol) (qualifier : Option String) : Node := ⟨.this qualifier, start, []⟩

/-- The field of a qualifier. -/
def fieldOf (start : LineCol) (qualifier : Node) (field : String) : Node :=
  ⟨.fieldAccess field, start, [qualifier]⟩

/-- The first segment of a path: `this` or a name. -/
def pathHead (start : LineCol) (segment : String) : Node :=
  if segment = "this" then thisRef start none else simpleName start segment

/-- One more segment of a path. -/
def pathStep (start : LineCol) (qualifier : Node) (segment : String) : Node :=
  if segment = "this" then thisRef start (some (qualifier.text.getD ""))
  else fieldOf start qualifier segment

/-- The expression that a dotted text stands for, all of it at `start`. -/
def path (start : LineCol) (dotted : String) : Node :=
  match Dotted.segments dotted with
  | [] => pathHead start ""
  | first :: rest => rest.foldl (pathStep start) (pathHead start first)

/-- A call without a receiver. -/
def call (start : LineCol) (name : String) (args : List Node) : Node :=
  ⟨.methodCall name false, start, args⟩

/-- A call on a receiver. -/
def callOn (start : LineCol) (receiver : Node) (name : String) (args : List Node) : Node :=
  ⟨.methodCall name true, start, receiver :: args⟩

/-- A type written as a dotted name. -/
def typeRef (start : LineCol) (dotted : String) : Node :=
  ⟨.typeRef (Dotted.segments dotted), start, []⟩

/-- A primitive type. -/
def primitive (start : LineCol) (name : String) : Node := ⟨.primitive name, start, []⟩

/-- The creation of an object, with the members of its anonymous class if it has a body. -/
def newObject (start : LineCol) (type : Node) (args : List Node) (body : Option (List Node)) :
    Node :=
  ⟨.objectCreation body.isSome, start, type :: (args ++ body.getD [])⟩

/-- A node without a part in name resolution. -/
def other (start : LineCol) (label : String) (children : List Node) : Node :=
  ⟨.other label, start, children⟩

/-- The node with other children. -/
def withChildren (node : Node) (children : List Node) : Node := { node with children }

end NameResolution.Node
