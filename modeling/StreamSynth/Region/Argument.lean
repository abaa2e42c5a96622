import StreamSynth.BufferSize
import StreamSynth.Emit.Identifier
import StreamSynth.Naming
import StreamSynth.Region.Closure
import StreamSynth.Stencil.Type

/-!
# Arguments of kernels

Every captured name becomes one argument of the kernel of its region: buffers first, then streams
and scalars in the order of their first use. Their identifiers in the generated code must differ.
-/

namespace StreamSynth

inductive ArgumentRole where
  | memory (size : Option Expr) (read write : Bool)
  | stream (type : Option StencilType)
  | scalar

structure Argument where
  name : String
  /-- The element type. -/
  type : ScalarType
  role : ArgumentRole

namespace Argument

def ofBuffer (buffer : BufferUse) : Argument :=
  ⟨buffer.name, buffer.type, .memory none buffer.read buffer.write⟩

/-- The argument of a captured variable. A stencil has its type from the enclosing
declarations. -/
def ofVariable (stencils : Scope StencilType) (naming : Naming) (region : String)
    (entry : String × ScalarType) : Except LoweringError Argument :=
  let (name, type) := entry
  match naming.classify name region with
  | .error e => .error e
  | .ok .scalar => .ok ⟨name, type, .scalar⟩
  | .ok .stencil =>
    match stencils.get? name with
    | some stencil => .ok ⟨name, stencil.element, .stream (some stencil)⟩
    | none => .error (.unscopedStream name region)

/-- Refuses the first argument whose identifier is that of one before it. -/
def checkIdentifiers (region : String) (seen : List Argument) :
    List Argument → Except LoweringError Unit
  | [] => .ok ()
  | arg :: rest =>
    match seen.find? (identifier ·.name = identifier arg.name) with
    | some first =>
      .error (.argumentCollision first.name arg.name (identifier arg.name) region)
    | none => checkIdentifiers region (seen ++ [arg]) rest

def stencil? (arg : Argument) : Option StencilType :=
  match arg.role with
  | .memory .. => some (.memoryOf arg.type)
  | .stream type => type
  | .scalar => none

/-- The number of elements, as far as it is known. -/
def size? (arg : Argument) : Option Expr :=
  match arg.role with
  | .memory size _ _ => size
  | _ => none

def isRead (arg : Argument) : Bool :=
  match arg.role with
  | .memory _ read _ => read
  | _ => false

def isWritten (arg : Argument) : Bool :=
  match arg.role with
  | .memory _ _ write => write
  | _ => false

def annotate (sizes : BufferSizes) (arg : Argument) : Argument :=
  match arg.role with
  | .memory _ read write => { arg with role := .memory (sizes.get? arg.name) read write }
  | _ => arg

def parameter (arg : Argument) : String :=
  let id := identifier arg.name
  match arg.role with
  | .stream (some stencil) => stencil.generated ++ " &" ++ id
  | .memory size _ _ =>
    match size.bind Expr.int? with
    | some n => arg.type.generated ++ " " ++ id ++ "[" ++ toString n.toInt ++ "]"
    | none => arg.type.generated ++ " *" ++ id
  | .stream none | .scalar => arg.type.generated ++ " " ++ id

def interfacePragma (arg : Argument) : String :=
  let id := identifier arg.name
  match arg.role with
  | .stream _ => "#pragma HLS INTERFACE axis register port=" ++ id
  | .memory size _ _ =>
    match size.bind Expr.int? with
    | some n => "#pragma HLS INTERFACE m_axi port=" ++ id ++ " depth=" ++ toString n.toInt
    | none => "#pragma HLS INTERFACE m_axi port=" ++ id
  | .scalar => "#pragma HLS INTERFACE s_axilite port=" ++ id ++ " bundle=config"

end Argument

def Closure.arguments (c : Closure) (stencils : Scope StencilType) (naming : Naming)
    (region : String) : Except LoweringError (List Argument) := do
  let vars ← c.vars.mapM (Argument.ofVariable stencils naming region)
  let args := c.buffers.map Argument.ofBuffer ++ vars
  Argument.checkIdentifiers region [] args
  return args

end StreamSynth
