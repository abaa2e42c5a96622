import StreamSynth.Diagnostic
import StreamSynth.Grammar.Pipeline
import StreamSynth.Report.Build

/-!
# Compilation

Source text is parsed and the pipeline in it lowered. A source with any error is not lowered; all
its errors are reported. Lowering reports the first error.
-/

namespace StreamSynth

inductive Phase where
  | parse
  | generate
  deriving DecidableEq

def Phase.name : Phase → String
  | parse => "parse"
  | generate => "generate"

/-- Why a compilation failed: what a phase reported, or a constant quotient that leaves the
64-bit range. -/
inductive CompileFailure where
  | reported (phase : Phase) (diagnostics : List Diagnostic)
  | overflow
  deriving DecidableEq

structure Compilation where
  pipeline : Pipeline
  generated : Generated
  closureReport : String
  buildReport : String

def SyntaxError.diagnostic (e : SyntaxError) : Diagnostic :=
  { level := .error, message := e.message, code := some Diagnostic.syntaxCode, span := some e.span }

/-- The last resort for a source without a pipeline and without errors. -/
def Diagnostic.noOutput : Diagnostic :=
  { level := .error, message := "parse failed with no output", code := some syntaxCode }

def Parsed.diagnostics (parsed : Parsed) : List Diagnostic :=
  if parsed.errors.isEmpty then [.noOutput] else parsed.errors.map SyntaxError.diagnostic

def compile (config : Config) (source : String) : Except CompileFailure Compilation :=
  let parsed := parse source
  match parsed.pipeline, parsed.errors with
  | some pipeline, [] =>
    match generate config pipeline with
    | .ok generated =>
      .ok ⟨pipeline, generated, closureReport generated.regions, buildReport source config⟩
    | .error (.refused e) => .error (.reported .generate [Diagnostic.ofError e])
    | .error .overflow => .error .overflow
  | _, _ => .error (.reported .parse parsed.diagnostics)

/-- How a compilation can end. -/
theorem compile_cases (config : Config) (source : String) :
    (∃ phase diagnostics, compile config source = .error (.reported phase diagnostics)) ∨
      ∃ p, parse source = ⟨some p, []⟩ ∧
        (generate config p = .error .overflow ∧ compile config source = .error .overflow ∨
          ∃ c, c.pipeline = p ∧ generate config p = .ok c.generated ∧
            compile config source = .ok c) := by
  unfold compile
  cases parse source with
  | mk pipeline errors =>
    dsimp only
    split
    · next p =>
      split
      · next generated isGenerated => exact .inr ⟨p, rfl, .inr ⟨_, rfl, isGenerated, rfl⟩⟩
      · exact .inl ⟨_, _, rfl⟩
      · next stopped => exact .inr ⟨p, rfl, .inl ⟨stopped, rfl⟩⟩
    · exact .inl ⟨_, _, rfl⟩

end StreamSynth
