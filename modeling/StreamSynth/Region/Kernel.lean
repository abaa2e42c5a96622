import StreamSynth.Config.Basic
import StreamSynth.Emit.Stmt
import StreamSynth.Region.Argument

/-!
# Kernels

The kernels of all regions go into one pair of files: a header with a prototype for each and a
source file with the definitions, both in the order in which the kernels are written.
-/

namespace StreamSynth

structure KernelFiles where
  header : Writer
  source : Writer

namespace KernelFiles

/-- The name that guards the header against a second inclusion. -/
def guard (config : Config) : String :=
  String.ofList ((identifierChars config.kernelStem.toList).map Char.toUpper) ++ "_H"

def start (config : Config) : KernelFiles where
  header := Writer.empty.lineAll
    (["#ifndef " ++ guard config, "#define " ++ guard config, ""] ++
      config.kernelHeaders.map ("#include " ++ ·) ++ [""])
  source := Writer.empty.lineAll ["#include \"" ++ config.headerName ++ "\"", ""]

def finish (config : Config) (files : KernelFiles) : KernelFiles :=
  { files with header := files.header.lineAll ["", "#endif  // " ++ guard config] }

def signature (name : String) (args : List Argument) : String :=
  "void " ++ identifier name ++ "(" ++ commaSeparated (args.map Argument.parameter) ++ ")"

def directives (config : Config) (args : List Argument) : List String :=
  "#pragma HLS DATAFLOW" ::
    (if config.interfacePragmas then
      args.map Argument.interfacePragma ++
        ["#pragma HLS INTERFACE s_axilite port=return bundle=config"]
    else [])

def argumentScope (args : List Argument) : Scope StencilType :=
  args.foldl (fun scope arg =>
    match arg.role with
    | .stream (some stencil) => scope.push arg.name stencil
    | _ => scope) .empty

def onSource (steps : Emission Writer Unit) : Emission KernelFiles Unit := fun files =>
  match steps files.source with
  | .ok _ source => .ok () { files with source }
  | .error e source => .error e { files with source }

def emitKernel (config : Config) (name : String) (args : List Argument) (body : Stmt) :
    Emission KernelFiles Unit := do
  let emitter := Emitter.plain config.naming config.streamDepth
  modify fun files => { files with header := files.header.line (signature name args ++ ";") }
  onSource do
    emitter.indented (signature name args ++ " \x7b") do
      modify (·.lineAll (directives config args))
      emitter.emit body ⟨.empty, argumentScope args⟩
    modify (·.lineAll ["\x7d", ""])

end KernelFiles

end StreamSynth
