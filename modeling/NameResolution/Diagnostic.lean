import NameResolution.ResolveError

/-!
# Diagnostics

A diagnostic is a located message for people; a log keeps them in the order in which they came.
`ResolveError.toDiagnostic` is the diagnostic of a hard failure.
-/

namespace NameResolution

/-- How bad a diagnostic is. -/
inductive Severity where
  | error
  | warning
deriving DecidableEq, Repr

instance : ToString Severity :=
  ⟨fun
    | .error => "error"
    | .warning => "warning"⟩

/-- A located message; line and column count from zero. -/
structure Diagnostic where
  file : FileId
  line : Nat
  col : Nat
  severity : Severity
  code : Option String
  message : String
deriving DecidableEq, Repr

namespace Diagnostic

/-- The line `path:line:col: severity[code]: message`, line and column counting from one. -/
def render (d : Diagnostic) (path : String) : String :=
  let code :=
    match d.code with
    | some code => "[" ++ code ++ "]"
    | none => ""
  path ++ ":" ++ toString (d.line + 1) ++ ":" ++ toString (d.col + 1) ++ ": "
    ++ toString d.severity ++ code ++ ": " ++ d.message

end Diagnostic

/-- The diagnostic of a hard failure, at its position. -/
def ResolveError.toDiagnostic (e : ResolveError) : Diagnostic where
  file := e.position.file
  line := e.position.line
  col := e.position.col
  severity := .error
  code := some e.code
  message := e.message

/-- Diagnostics in the order in which they came. -/
structure DiagnosticLog where
  entries : List Diagnostic
deriving DecidableEq, Repr

namespace DiagnosticLog

/-- The log without diagnostics. -/
def empty : DiagnosticLog := ⟨[]⟩

/-- Adds a diagnostic at the end. -/
def add (log : DiagnosticLog) (d : Diagnostic) : DiagnosticLog := ⟨log.entries ++ [d]⟩

/-- Adds the diagnostic of a hard failure. -/
def addError (log : DiagnosticLog) (e : ResolveError) : DiagnosticLog := log.add e.toDiagnostic

/-- The diagnostics of one file. -/
def forFile (log : DiagnosticLog) (file : FileId) : List Diagnostic :=
  log.entries.filter (·.file == file)

/-- The number of errors; warnings do not count. -/
def errorCount (log : DiagnosticLog) : Nat := log.entries.countP (·.severity == .error)

/-- There are errors. -/
def hasErrors (log : DiagnosticLog) : Bool := log.entries.any (·.severity == .error)

/-- The number of diagnostics. -/
def size (log : DiagnosticLog) : Nat := log.entries.length

/-- There are no diagnostics. -/
def isEmpty (log : DiagnosticLog) : Bool := log.entries.isEmpty

end DiagnosticLog

end NameResolution
