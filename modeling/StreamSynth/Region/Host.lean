import StreamSynth.Region.FreshName
import StreamSynth.Region.Kernel

/-!
# The host driver

The host code is the pipeline with every hardware region replaced by a call of its kernel. On the
way it records the sizes of buffers, writes transfers between memory and streams, and puts a
drain of a stream after the statement that follows it, so that the stream is filled first.
-/

namespace StreamSynth

structure RegionRecord where
  target : String
  kernel : String
  args : List Argument

structure Host where
  writer : Writer
  kernels : KernelFiles
  names : FreshNames
  regions : Array RegionRecord

inductive Direction where
  | fill
  | drain
  deriving DecidableEq

namespace Direction

def of (args : List Expr) : Except LoweringError Direction :=
  match args.head?.bind Expr.string? with
  | some "buffer_to_stream" => .ok .fill
  | some "stream_to_buffer" => .ok .drain
  | some other => .error (.malformed streamSubimage ("unknown direction " ++ quoted other))
  | none => .error (.malformed streamSubimage "first argument must be a direction string")

def function : Direction → String
  | fill => "subimage_to_stream"
  | drain => "stream_to_subimage"

end Direction

namespace Host

def start (config : Config) : Host where
  writer := Writer.empty.lineAll
    (config.driverHeaders.map ("#include " ++ ·) ++
      ["#include \"" ++ config.headerName ++ "\"", ""])
  kernels := .start config
  names := .empty
  regions := #[]

def onWriter (change : Writer → Writer) (host : Host) : Host :=
  { host with writer := change host.writer }

def onKernels (steps : Emission KernelFiles Unit) : Emission Host Unit := fun host =>
  match steps host.kernels with
  | .ok _ kernels => .ok () { host with kernels }
  | .error e kernels => .error e { host with kernels }

def isDrain : Stmt → Except LoweringError Bool
  | .evaluate value =>
    match value.callTo? streamSubimage with
    | some args => do
      let direction ← Direction.of args
      return direction = .drain
    | none => .ok false
  | _ => .ok false

/-- A new name for a kernel, decided on its identifier. -/
def freshKernel (config : Config) (target : String) : Emission Host String := fun host =>
  let (kernel, names) := host.names.unique (identifier (config.kernelStem ++ "_" ++ target))
  .ok kernel { host with names }

def lowerRegion (config : Config) (target : String) (body : Stmt) (env : Env) :
    Emission Host Unit := do
  let args ← Emission.ofExcept
    ((Closure.capture body).arguments env.stencils config.naming target)
  let args := args.map (Argument.annotate env.sizes)
  let kernel ← freshKernel config target
  onKernels (KernelFiles.emitKernel config kernel args body)
  let call := kernel ++ "(" ++ commaSeparated (args.map (identifier ·.name)) ++ ");"
  modify (onWriter (·.line call))
  modify fun host => { host with regions := host.regions.push ⟨target, kernel, args⟩ }

def transfer (args : List Expr) : Emission Host Unit := do
  if args.length < 6 ∨ 12 < args.length then
    throw (.refused (.malformed streamSubimage
      ("expected 6 to 12 arguments, found " ++ toString args.length)))
  let direction ← Emission.ofExcept (Direction.of args)
  let printed ← Emission.ofExcept (Expr.printArgs args.tail)
  modify (onWriter (·.line (direction.function ++ "(" ++ printed ++ ");")))

def copyToStencil (args : List Expr) : Emission Host Unit := do
  if args.length ≠ 2 then
    throw (.refused (.malformed bufferToStencil
      ("expected 2 arguments, found " ++ toString args.length)))
  let printed ← Emission.ofExcept (Expr.printArgs args)
  modify (onWriter (·.line (bufferToStencil ++ "(" ++ printed ++ ");")))

/-- The memory variable and the shape of a buffer descriptor under construction. -/
def descriptorShape? (value : Expr) : Option (String × List Expr) := do
  let args ← value.callTo? "buffer_init"
  match args.head? with
  | some (.var memory _) =>
    let shape ← args[8]?
    let fields ← shape.callTo? "make_struct"
    return (memory, fields)
  | _ => none

/-- What a definition makes known: the size of the buffer that a descriptor belongs to. -/
def letEnv (naming : Naming) (env : Env) (value : Expr) : Except Stop Env :=
  match descriptorShape? value with
  | none => .ok env
  | some (memory, shape) => do
    let sizes ← env.sizes.recordShape (naming.bufferOf memory) shape
    return { env with sizes }

/-- What an allocation makes known: the size of its buffer. -/
def allocateEnv (env : Env) (name : String) (extents : List Expr) : Except Stop Env := do
  let sizes ← env.sizes.recordAllocation name extents
  return { env with sizes }

/-- Statements that stand for transfers. -/
def intrinsic? (value : Expr) : Option (Emission Host Unit) :=
  match value with
  | .call name _ args =>
    if name = streamSubimage then some (transfer args)
    else if name = bufferToStencil then some (copyToStencil args)
    else none
  | _ => none

def emitter (config : Config) : Emitter Host where
  naming := config.naming
  streamDepth := config.streamDepth
  onWriter := onWriter
  region? name body := (config.naming.regionTarget? name).map fun target =>
    lowerRegion config target body
  intrinsic? := intrinsic?
  isDrain := isDrain
  letEnv := letEnv config.naming
  allocateEnv := allocateEnv

def parameter (p : Param) : String :=
  match p.kind with
  | .buffer => p.type.generated ++ " *" ++ identifier p.name
  | .scalar => p.type.generated ++ " " ++ identifier p.name

def emitPipeline (config : Config) (p : Pipeline) : Emission Host Unit := do
  let e := emitter config
  let opening := "int " ++ identifier p.name ++ "(" ++ commaSeparated (p.params.map parameter) ++
    ") \x7b"
  e.indented opening do
    e.emit p.body .empty
    e.line "return 0;"
  e.line "\x7d"

end Host

structure Generated where
  driver : String
  header : String
  source : String
  regions : List RegionRecord

def generate (config : Config) (p : Pipeline) : Except Stop Generated :=
  match Host.emitPipeline config p (.start config) with
  | .error e _ => .error e
  | .ok _ host =>
    let kernels := host.kernels.finish config
    .ok ⟨host.writer.text, kernels.header.text, kernels.source.text, host.regions.toList⟩

end StreamSynth
