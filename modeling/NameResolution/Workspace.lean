import NameResolution.FileSet
import NameResolution.Walk

/-!
# Workspaces

The files of a run with their syntax and scope trees. All of them are resolved against one policy,
each on its own: a failure stops its file only, and is reported as a diagnostic.
-/

namespace NameResolution

/-- A file ready for resolution. -/
structure SourceUnit where
  file : FileId
  root : Node
  scopes : ScopeTree

/-- The files of a run and the units to resolve, one for each added path. -/
structure Workspace where
  files : FileSet
  units : OrderedMap FileId SourceUnit

/-- The outcomes of a run in the order of the units, and a diagnostic for each failure. -/
structure Report where
  outcomes : OrderedMap FileId (Except ResolveError Resolution)
  diagnostics : DiagnosticLog

namespace Report

/-- Nothing was resolved. -/
def empty : Report := ⟨.empty, .empty⟩

instance : Inhabited Report := ⟨empty⟩

/-- Adds the outcome of a file. -/
def add (report : Report) (file : FileId) (outcome : Except ResolveError Resolution) : Report where
  outcomes := report.outcomes.insert file outcome
  diagnostics :=
    match outcome with
    | .ok _ => report.diagnostics
    | .error e => report.diagnostics.addError e

/-- The resolution of a file that was not stopped. -/
def resolution? (report : Report) (file : FileId) : Option Resolution :=
  match report.outcomes.find? file with
  | some (.ok resolution) => some resolution
  | _ => none

/-- The failure that stopped a file. -/
def error? (report : Report) (file : FileId) : Option ResolveError :=
  match report.outcomes.find? file with
  | some (.error e) => some e
  | _ => none

/-- No file was stopped. -/
def isClean (report : Report) : Bool := !report.diagnostics.hasErrors

/-- The number of outcomes. -/
def size (report : Report) : Nat := report.outcomes.size

/-- There are no outcomes. -/
def isEmpty (report : Report) : Bool := report.outcomes.isEmpty

end Report

namespace Workspace

/-- No files. -/
def empty : Workspace := ⟨.empty, .empty⟩

instance : Inhabited Workspace := ⟨empty⟩

/-- Adds the trees of a path, in place of those it had. The text of the file stays as it is. -/
def add (ws : Workspace) (path : String) (root : Node) (scopes : ScopeTree) :
    FileId × Workspace :=
  let (file, files) := ws.files.register path
  (file, ⟨files, ws.units.insert file ⟨file, root, scopes⟩⟩)

/-- Adds the trees of a path together with its text. -/
def addSource (ws : Workspace) (path text : String) (root : Node) (scopes : ScopeTree) :
    FileId × Workspace :=
  let (file, ws) := ws.add path root scopes
  (file, { ws with files := ws.files.setText file text })

/-- The unit of a file. -/
def unit? (ws : Workspace) (file : FileId) : Option SourceUnit := ws.units.find? file

/-- The number of units. -/
def size (ws : Workspace) : Nat := ws.units.size

/-- There are no units. -/
def isEmpty (ws : Workspace) : Bool := ws.units.isEmpty

/-- Resolves every unit against a policy. -/
def resolveAll (ws : Workspace) (policy : Policy) : Report :=
  ws.units.values.foldl
    (fun report unit => report.add unit.file (resolveFile unit.file unit.root unit.scopes policy))
    .empty

end Workspace

end NameResolution
