import StreamSynth.CommandLine.FileTree
import StreamSynth.CommandLine.Options
import StreamSynth.Compile
import StreamSynth.Config.Reader

/-!
# A run of the command line

A run reads the configuration, then the source, compiles it and puts out the files of the chosen
stage: into a directory if one is given, else to the standard output. It is written over any file
system, so that a run on a `FileTree` is a plain function.
-/

namespace StreamSynth

structure RunResult where
  exitCode : Nat
  stdout : String
  /-- Messages, in order. -/
  stderr : List String
  deriving DecidableEq

namespace RunResult

/-- The exit code of a run that a quotient out of range stopped. -/
def overflowExit : Nat := 101

def after (log : List String) (r : RunResult) : RunResult := { r with stderr := log ++ r.stderr }

def failure (exitCode : Nat) (messages : List String) : RunResult := ⟨exitCode, "", messages⟩

end RunResult

def logLine (text : String) : String := "hlsc: " ++ text

def Diagnostic.logLine (d : Diagnostic) : String := StreamSynth.logLine d.display

def fileFailure (path : String) (e : FileError) : RunResult :=
  .failure 2 [logLine ("error: " ++ path ++ ": " ++ e.message)]

def configFailure (e : ConfigError) : RunResult :=
  .failure 2
    [Diagnostic.logLine
      { level := .error, message := e.message, code := some Diagnostic.configCode }]

def joinPath (dir file : String) : String :=
  if file.toList.head? = some '/' then file
  else if dir.toList.getLast? = some '/' then dir ++ file
  else dir ++ "/" ++ file

def outputs (config : Config) (stage : OutputStage) (c : Compilation) : List (String × String) :=
  let driver := (c.pipeline.name ++ ".cpp", c.generated.driver)
  let header := (config.headerName, c.generated.header)
  let source := (config.kernelStem ++ ".cpp", c.generated.source)
  let closure := ("closure.json", c.closureReport)
  let buildInfo := ("build-info.json", c.buildReport)
  match stage with
  | .all => [driver, header, source, closure, buildInfo]
  | .driver => [driver]
  | .kernel => [header, source]
  | .closure => [closure]
  | .buildInfo => [buildInfo]

/-- Files for the standard output; several are told apart by a line with their name. -/
def printed (files : List (String × String)) : String :=
  let title (name : String) := if files.length ≤ 1 then "" else "// ── " ++ name ++ " ──\n"
  String.join (files.map fun (name, text) => title name ++ text)

/-- The options of the command line go before those of the configuration. -/
def Options.override (o : Options) (config : Config) : Config :=
  { config with
    kernelStem := o.kernelStem.getD config.kernelStem
    streamDepth := o.streamDepth.getD config.streamDepth }

/-- The messages of the phases that a compilation went through. -/
def phaseLog (result : Except CompileFailure Compilation) : List String :=
  let done (phase : Phase) := logLine (phase.name ++ " complete")
  match result with
  | .ok c =>
    [done .parse, done .generate,
     logLine ("lowered " ++ toString c.generated.regions.length ++ " hardware region(s)")]
  | .error _ => [done .parse]

def compileFailure (verbose : Bool) : CompileFailure → RunResult
  | .overflow => .failure RunResult.overflowExit []
  | .reported phase diagnostics =>
    .failure 1 (diagnostics.map Diagnostic.logLine ++
      (if verbose then [logLine (phase.name ++ " failed")] else []))

section

variable {m : Type → Type} [Monad m] (fs : FileSystem m)

/-- Writes files into a directory, up to the first that cannot be written. -/
def writeOutputs (verbose : Bool) (dir : String) : List (String × String) → m RunResult
  | [] => return ⟨0, "", []⟩
  | (file, text) :: rest => do
    let path := joinPath dir file
    match ← fs.writeFile path text with
    | .error e => return fileFailure path e
    | .ok () => do
      let result ← writeOutputs verbose dir rest
      return result.after (if verbose then [logLine ("wrote " ++ path)] else [])

def putOut (o : Options) (files : List (String × String)) : m RunResult :=
  match o.outDir with
  | none => return ⟨0, printed files, []⟩
  | some dir => do
    match ← fs.makeDirs dir with
    | .error e => return fileFailure dir e
    | .ok () => writeOutputs fs o.verbose dir files

def loadConfig (path : Option String) : m (Except ConfigError Config) :=
  match path with
  | none => return .ok Config.standard
  | some path => do
    match ← fs.readFile path with
    | .error e => return .error (.unreadable path e.message)
    | .ok text => return Config.ofText path text

def runConfig (o : Options) : m (Except ConfigError Config) := do
  match ← loadConfig fs o.config with
  | .error e => return .error e
  | .ok config =>
    let config := o.override config
    match config.fault? with
    | some fault => return .error (.invalid fault)
    | none => return .ok config

def runSource (o : Options) (config : Config) (source : String) : m RunResult := do
  let result := compile config source
  let log := if o.verbose then phaseLog result else []
  match result with
  | .error failure => return (compileFailure o.verbose failure).after log
  | .ok c => do
    let result ← putOut fs o (outputs config o.stage c)
    return result.after log

def runOptions (o : Options) : m RunResult := do
  let log :=
    if o.verbose then
      [logLine ("source = " ++ o.source), logLine ("emit   = " ++ o.stage.display)]
    else []
  match ← runConfig fs o with
  | .error e => return (configFailure e).after log
  | .ok config => do
    match ← fs.readFile o.source with
    | .error e => return (fileFailure o.source e).after log
    | .ok source => do
      let result ← runSource fs o config source
      return result.after log

end

def helpText : String :=
  "HLS lowering backend: turns hardware regions of a lowered pipeline into accelerator kernels " ++
  "and a host driver\n\n" ++
  "Usage: hlsc [OPTIONS] <SOURCE>\n\n" ++
  "Arguments:\n" ++
  "  <SOURCE>  Input .hir IR file\n\n" ++
  "Options:\n" ++
  "  -o, --out-dir <OUT_DIR>              Directory for generated files; without it, the " ++
  "selected output goes to stdout\n" ++
  "      --emit <EMIT>                    Output stage [default: all] [possible values: all, " ++
  "driver, kernel, closure, build-info]\n" ++
  "      --config <CONFIG>                JSON configuration file\n" ++
  "      --kernel-prefix <KERNEL_PREFIX>  Override the kernel identifier prefix\n" ++
  "      --stream-depth <STREAM_DEPTH>    Override the FIFO depth of declared streams\n" ++
  "      --verbose                        Print compiler phases, timing and debug events\n" ++
  "  -h, --help                           Print help\n" ++
  "  -V, --version                        Print version\n"

def run {m : Type → Type} [Monad m] (fs : FileSystem m) (args : List String) : m RunResult :=
  match Invocation.ofArgs args with
  | .version => return ⟨0, "hlsc " ++ version ++ "\n", []⟩
  | .help => return ⟨0, helpText, []⟩
  | .misuse => return .failure 2 ["error: invalid arguments, see --help"]
  | .run options => runOptions fs options

end StreamSynth
