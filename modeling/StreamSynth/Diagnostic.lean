import StreamSynth.LoweringError
import StreamSynth.Span

/-!
# Diagnostics

A diagnostic is a message for the user: its level, a stable code, the place it is about and a
hint on what to do.
-/

namespace StreamSynth

inductive DiagnosticLevel where
  | error
  | warning
  deriving DecidableEq

def DiagnosticLevel.display : DiagnosticLevel → String
  | error => "error"
  | warning => "warning"

structure Diagnostic where
  level : DiagnosticLevel
  message : String
  code : Option String := none
  span : Option Span := none
  hint : Option String := none
  deriving DecidableEq

namespace Diagnostic

def syntaxCode : String := "E0001"

def configCode : String := "E0002"

def display (d : Diagnostic) : String :=
  let code := match d.code with
    | some code => "[" ++ code ++ "]"
    | none => ""
  let place := match d.span with
    | some span => " (at " ++ toString span.start ++ ".." ++ toString span.stop ++ ")"
    | none => ""
  let hint := match d.hint with
    | some hint => "\n  hint: " ++ hint
    | none => ""
  d.level.display ++ code ++ ": " ++ d.message ++ place ++ hint

def ofError (e : LoweringError) : Diagnostic :=
  { level := .error, message := e.message, code := some e.code, hint := e.hint? }

end Diagnostic

end StreamSynth
