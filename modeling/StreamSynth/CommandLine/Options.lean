/-!
# Command line options

One source file and options that may stand before or after it. A value follows its option as the
next argument or after an equals sign. Nothing may be given twice, and after `--` every argument
is a file.
-/

namespace StreamSynth

inductive OutputStage where
  | all
  | driver
  | kernel
  | closure
  | buildInfo
  deriving DecidableEq

namespace OutputStage

def ofWord? : String → Option OutputStage
  | "all" => some all
  | "driver" => some driver
  | "kernel" => some kernel
  | "closure" => some closure
  | "build-info" => some buildInfo
  | _ => none

def display : OutputStage → String
  | all => "All"
  | driver => "Driver"
  | kernel => "Kernel"
  | closure => "Closure"
  | buildInfo => "BuildInfo"

end OutputStage

structure Options where
  source : String
  outDir : Option String
  stage : OutputStage
  config : Option String
  kernelStem : Option String
  streamDepth : Option Nat
  verbose : Bool
  deriving DecidableEq

inductive Invocation where
  | run (options : Options)
  | version
  | help
  | misuse
  deriving DecidableEq

namespace Options

structure Draft where
  source : Option String
  outDir : Option String
  stage : Option OutputStage
  config : Option String
  kernelStem : Option String
  streamDepth : Option Nat
  verbose : Bool

def Draft.empty : Draft := ⟨none, none, none, none, none, none, false⟩

inductive Valued where
  | outDir
  | stage
  | config
  | kernelStem
  | streamDepth
  deriving DecidableEq

def Valued.ofName? : String → Option Valued
  | "out-dir" => some outDir
  | "emit" => some stage
  | "config" => some config
  | "kernel-prefix" => some kernelStem
  | "stream-depth" => some streamDepth
  | _ => none

/-- A decimal number of 64 bits, perhaps with a plus sign. -/
def readDepth? (text : String) : Option Nat :=
  let digits := match text.toList with
    | '+' :: rest => rest
    | cs => cs
  if digits.isEmpty || !digits.all Char.isDigit then none
  else
    let value := Nat.ofDigitChars 10 digits 0
    if value < UInt64.size then some value else none

def fill {α : Type} (slot : Option α) (value : Option α) : Option (Option α) :=
  if slot.isSome then none else value.map some

def path? (text : String) : Option String := if text.isEmpty then none else some text

def Draft.set? (d : Draft) (option : Valued) (text : String) : Option Draft :=
  match option with
  | .outDir => (fill d.outDir (path? text)).map fun v => { d with outDir := v }
  | .stage => (fill d.stage (OutputStage.ofWord? text)).map fun v => { d with stage := v }
  | .config => (fill d.config (path? text)).map fun v => { d with config := v }
  | .kernelStem => (fill d.kernelStem (some text)).map fun v => { d with kernelStem := v }
  | .streamDepth => (fill d.streamDepth (readDepth? text)).map fun v => { d with streamDepth := v }

def Draft.setSource? (d : Draft) (text : String) : Option Draft :=
  (fill d.source (path? text)).map fun v => { d with source := v }

def Draft.finish (d : Draft) : Invocation :=
  match d.source with
  | none => .misuse
  | some source =>
    .run ⟨source, d.outDir, d.stage.getD .all, d.config, d.kernelStem, d.streamDepth, d.verbose⟩

/-- Whether an argument cannot be the value of the option before it. -/
def looksLikeOption (arg : String) : Bool :=
  match arg.toList with
  | '-' :: _ :: _ => true
  | _ => false

def files (d : Draft) : List String → Invocation
  | [] => d.finish
  | arg :: rest =>
    match d.setSource? arg with
    | some d => files d rest
    | none => .misuse

inductive Shape where
  | separator
  | long (name : String) (value : Option String)
  | short (letter : Char) (rest : List Char)
  | file (text : String)

def Shape.of (arg : String) : Shape :=
  match arg.toList with
  | ['-', '-'] => .separator
  | '-' :: '-' :: cs =>
    let name := cs.takeWhile (· ≠ '=')
    match cs.drop name.length with
    | _ :: value => .long (String.ofList name) (some (String.ofList value))
    | [] => .long (String.ofList name) none
  | '-' :: letter :: rest => .short letter rest
  | _ => .file arg

/-- The value that stands in the same argument as a short option. -/
def attached : List Char → Option String
  | [] => none
  | '=' :: value => some (String.ofList value)
  | value => some (String.ofList value)

/-- What an argument means, before its value is known. -/
inductive Meaning where
  | files
  | valued (option : Valued) (value : Option String)
  | verbose
  | version
  | help
  | source (text : String)
  | unknown

def Meaning.of (arg : String) : Meaning :=
  match Shape.of arg with
  | .separator => .files
  | .file text => .source text
  | .short 'o' rest => .valued .outDir (attached rest)
  | .short 'V' _ => .version
  | .short 'h' _ => .help
  | .short _ _ => .unknown
  | .long name value =>
    match Valued.ofName? name with
    | some option => .valued option value
    | none =>
      match name, value with
      | "verbose", none => .verbose
      | "version", none => .version
      | "help", none => .help
      | _, _ => .unknown

def read (d : Draft) : List String → Invocation
  | [] => d.finish
  | arg :: rest =>
    match Meaning.of arg with
    | .files => files d rest
    | .version => .version
    | .help => .help
    | .unknown => .misuse
    | .verbose => if d.verbose then .misuse else read { d with verbose := true } rest
    | .source text =>
      match d.setSource? text with
      | some d => read d rest
      | none => .misuse
    | .valued option (some value) =>
      match d.set? option value with
      | some d => read d rest
      | none => .misuse
    | .valued option none =>
      match rest with
      | [] => .misuse
      | value :: rest =>
        if looksLikeOption value then .misuse
        else
          match d.set? option value with
          | some d => read d rest
          | none => .misuse

end Options

def Invocation.ofArgs (args : List String) : Invocation := Options.read .empty args

end StreamSynth
