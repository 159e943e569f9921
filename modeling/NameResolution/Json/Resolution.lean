import NameResolution.Json.Shape
import NameResolution.Json.Write
import NameResolution.Resolution

/-!
# The written form of resolutions

A resolution is written as its two tables, a table as the list of its entries in order, an entry as
the pair of position and name. Reading takes any JSON text of that shape; a position that comes
again replaces the name and keeps the first place.
-/

namespace NameResolution

namespace LineCol

/-- The written form, as in `{"line":0,"col":0}`. -/
def writeJson (p : LineCol) : List Char :=
  Json.writeObject [("line", Json.writeNat p.line), ("col", Json.writeNat p.col)]

/-- Reads a place. -/
def readJson : Json.Reader LineCol := do
  let (line, col) ← Json.Reader.record₂ "line" .word32 "col" .word32
  return ⟨line, col⟩

end LineCol

namespace SourcePosition

/-- The written form, as in `{"file":0,"start":{"line":0,"col":0}}`. -/
def writeJson (p : SourcePosition) : List Char :=
  Json.writeObject [("file", Json.writeNat p.file.index), ("start", p.start.writeJson)]

/-- Reads a position. -/
def readJson : Json.Reader SourcePosition := do
  let (file, start) ← Json.Reader.record₂ "file" .word32 "start" LineCol.readJson
  return ⟨⟨file⟩, start⟩

/-- The written form as text. -/
def toJson (p : SourcePosition) : String := String.ofList p.writeJson

end SourcePosition

namespace Origin

/-- The written form, `{"Scope":"name"}` or `"Enclosing"`. -/
def writeJson : Origin → List Char
  | .scope name => Json.writeObject [("Scope", Json.writeString name)]
  | .enclosing => Json.writeString "Enclosing"

/-- Which origin a text names. -/
inductive Tag where
  | scope
  | enclosing
deriving DecidableEq, Repr

/-- Reads the tag of an origin. It is a key, so that anything but a string is malformed. -/
def readTag : Json.Reader Tag := do
  Json.Reader.token '"'
  let tag ← Json.Reader.stringTail
  if tag = "Scope" then return .scope
  else if tag = "Enclosing" then return .enclosing
  else Json.Reader.fail .mismatched

/-- Reads an origin: a tag that stands alone, or an object with a tag for its one key. -/
def readJson : Json.Reader Origin := do
  match ← Json.Reader.peekToken with
  | none => Json.Reader.fail .truncated
  | some c =>
    if c = '"' then
      match ← readTag with
      | .scope => Json.Reader.fail .mismatched
      | .enclosing => return .enclosing
    else if c = '{' then
      Json.Reader.advance
      let tag ← readTag
      Json.Reader.token ':'
      let origin ←
        match tag with
        | .scope => do
          let name ← Json.Reader.string
          pure (Origin.scope name)
        | .enclosing => do
          Json.Reader.null
          pure Origin.enclosing
      Json.Reader.token '}'
      return origin
    else Json.Reader.fail .malformed

/-- The written form as text. -/
def toJson (o : Origin) : String := String.ofList o.writeJson

end Origin

namespace QualifiedName

variable {kind : NameType}

/-- The written form, as in `{"name":"n","origin":"Enclosing"}`. -/
def writeJson (q : QualifiedName kind) : List Char :=
  Json.writeObject [("name", Json.writeString q.name), ("origin", q.origin.writeJson)]

/-- Reads a name. -/
def readJson : Json.Reader (QualifiedName kind) := do
  let (name, origin) ← Json.Reader.record₂ "name" .string "origin" Origin.readJson
  return ⟨name, origin⟩

end QualifiedName

namespace NameTable

variable {kind : NameType}

/-- The list of the entries. -/
def writeJson (table : NameTable kind) : List Char :=
  Json.writeArray <| table.entries.map fun e => Json.writeArray [e.1.writeJson, e.2.writeJson]

/-- Reads a table. -/
def readJson : Json.Reader (NameTable kind) := do
  return .ofList (← Json.Reader.list (.pair SourcePosition.readJson QualifiedName.readJson))

end NameTable

namespace Resolution

/-- The written form, as in `{"methods":[],"identifiers":[]}`. -/
def writeJson (r : Resolution) : List Char :=
  Json.writeObject
    [("methods", NameTable.writeJson r.methods), ("identifiers", NameTable.writeJson r.identifiers)]

/-- Reads a resolution. -/
def readJson : Json.Reader Resolution := do
  let (methods, identifiers) ←
    Json.Reader.record₂ "methods" NameTable.readJson "identifiers" NameTable.readJson
  return ⟨methods, identifiers⟩

/-- The written form as text. -/
def toJson (r : Resolution) : String := String.ofList r.writeJson

/-- The resolution that a text is the written form of. -/
def ofJson (text : String) : Except Json.ReadError Resolution :=
  Json.Reader.readAll readJson text

end Resolution

end NameResolution
