import StreamSynth.BufferSize
import StreamSynth.Emit.Expr
import StreamSynth.Emit.Writer
import StreamSynth.Naming
import StreamSynth.Stencil.Type

/-!
# Statements of the generated code

One walk over statements serves every kind of generated code. An `Emitter` says where the lines
go and which statements it treats in its own way; the plain emitter treats none so. A walk that
stops early keeps what it wrote before.
-/

namespace StreamSynth

/-- What is known at one point of a walk: the sizes of buffers and the types of stencils. -/
structure Env where
  sizes : BufferSizes
  stencils : Scope StencilType

def Env.empty : Env := ⟨.empty, .empty⟩

/-- Steps that change a state and may stop early, keeping the state reached. -/
abbrev Emission (σ : Type) := EStateM Stop σ

namespace Emission

variable {σ α : Type}

def ofExcept : Except LoweringError α → Emission σ α
  | .ok value => pure value
  | .error e => throw (.refused e)

def ofStop : Except Stop α → Emission σ α
  | .ok value => pure value
  | .error e => throw e

/-- Stops when a fold leaves the 64-bit range. -/
def ofFold : Option α → Emission σ α
  | some value => pure value
  | none => throw .overflow

end Emission

structure Emitter (σ : Type) where
  naming : Naming
  /-- The queue depth of declared streams. -/
  streamDepth : Nat
  /-- Changes the writer inside the state. -/
  onWriter : (Writer → Writer) → σ → σ
  /-- A producer that is written in a way of its own, given its name and body. -/
  region? : String → Stmt → Option (Env → Emission σ Unit)
  /-- An evaluated expression that is written in a way of its own. -/
  intrinsic? : Expr → Option (Emission σ Unit)
  /-- Whether a statement is to be written after the one that follows it. -/
  isDrain : Stmt → Except LoweringError Bool
  /-- What a definition with the given value makes known in its body. -/
  letEnv : Env → Expr → Except Stop Env
  /-- What an allocation of the given name and extents makes known in its body. -/
  allocateEnv : Env → String → List Expr → Except Stop Env

namespace Emitter

variable {σ : Type}

def line (e : Emitter σ) (text : String) : Emission σ Unit :=
  modify (e.onWriter (·.line text))

/-- Runs `body` between an opening line and the return to the level before it. -/
def indented (e : Emitter σ) (opening : String) (body : Emission σ Unit) : Emission σ Unit := do
  e.line opening
  modify (e.onWriter Writer.indent)
  body
  modify (e.onWriter Writer.dedent)

def declare (e : Emitter σ) (type : StencilType) (name : String) : Emission σ Unit :=
  let id := identifier name
  modify (e.onWriter (·.lineAll ((type.generated ++ " " ++ id ++ ";") :: type.pragmas id)))

end Emitter

def letLine (name : String) (type : ScalarType) (value : String) : String :=
  (if type.isHandle then type.generated else "const " ++ type.generated ++ " ") ++
    identifier name ++ " = " ++ value ++ ";"

def loopLine (name min extent : String) : String :=
  let id := identifier name
  "for (int " ++ id ++ " = " ++ min ++ "; " ++ id ++ " < " ++ min ++ " + " ++ extent ++ "; " ++
    id ++ "++) \x7b"

def arrayLine (type : ScalarType) (name : String) (size : Int64) : String :=
  type.generated ++ " " ++ identifier name ++ "[" ++ toString size.toInt ++ "];"

def newLine (type : ScalarType) (name size : String) : String :=
  type.generated ++ " *" ++ identifier name ++ " = new " ++ type.generated ++ "[" ++ size ++ "];"

def drainPairError : LoweringError :=
  .unsupported streamSubimage
    "a stream drain directly followed by another drain cannot be reordered"

open Emission in
def Emitter.emit {σ : Type} (e : Emitter σ) : Stmt → Env → Emission σ Unit
  | .letIn name value body, env => do
    let env ← ofStop (e.letEnv env value)
    let printed ← ofExcept value.print
    e.line (letLine name value.type printed)
    e.emit body env
  | .assert condition message, _ => do
    let condition ← ofExcept condition.print
    e.line ("assert(" ++ condition ++ " && " ++ quoted message ++ ");")
  | .produce name body, env =>
    match e.region? name body with
    | some region => region env
    | none => do
      e.line ("// produce " ++ name)
      e.emit body env
  | .consume name body, env => do
    e.line ("// consume " ++ name)
    e.emit body env
  | .loop name min extent body, env => do
    let min ← ofExcept min.print
    let extent ← ofExcept extent.print
    e.indented (loopLine name min extent) (e.emit body env)
    e.line "\x7d"
  | .store name value index, _ => do
    let index ← ofExcept index.print
    let value ← ofExcept value.print
    e.line (identifier name ++ "[" ++ index ++ "] = " ++ value ++ ";")
  | .provide name value args, _ => do
    let args ← ofExcept (Expr.printArgs args)
    let value ← ofExcept value.print
    e.line (identifier name ++ "(" ++ args ++ ") = " ++ value ++ ";")
  | .allocate name type extents body, env => do
    let env ← ofStop (e.allocateEnv env name extents)
    let size ← ofFold (Expr.product extents)
    match size.int? with
    | some constant => e.line (arrayLine type name constant)
    | none => do
      modify (e.onWriter (·.allocate name))
      let printed ← ofExcept size.print
      e.line (newLine type name printed)
    e.emit body env
  | .free name, _ =>
    if e.naming.isStream name then pure ()
    else modify (e.onWriter (·.release name ("delete[] " ++ identifier name ++ ";")))
  | .realize name type bounds body, env =>
    if e.naming.isStream name then do
      let stencil ← ofStop (StencilType.ofBounds .streaming type bounds e.streamDepth)
      e.declare stencil name
      e.emit body { env with stencils := env.stencils.push name stencil }
    else if e.naming.isStencil name then do
      let stencil ← ofStop (StencilType.ofBounds .unpacked type bounds 0)
      e.declare stencil name
      e.emit body { env with stencils := env.stencils.push name stencil }
    else do
      let size ← ofFold (Expr.product (bounds.map Bound.extent))
      match size.int? with
      | none =>
        throw (.refused (.malformed "realize"
          ("`" ++ name ++ "` has a non-constant size " ++ size.display)))
      | some constant => do
        e.line (arrayLine type name constant)
        e.emit body env
  | .block first rest, env => do
    if ← ofExcept (e.isDrain first) then
      if ← ofExcept (e.isDrain rest.leading) then throw (.refused drainPairError)
      e.emit rest env
      e.emit first env
    else
      e.emit first env
      e.emit rest env
  | .ifThen condition thenCase, env => do
    let condition ← ofExcept condition.print
    e.indented ("if (" ++ condition ++ ") \x7b") (e.emit thenCase env)
    e.line "\x7d"
  | .ifThenElse condition thenCase elseCase, env => do
    let condition ← ofExcept condition.print
    e.indented ("if (" ++ condition ++ ") \x7b") (e.emit thenCase env)
    e.indented "\x7d else \x7b" (e.emit elseCase env)
    e.line "\x7d"
  | .evaluate value, _ =>
    match e.intrinsic? value with
    | some act => act
    | none =>
      if value.int?.isSome then pure ()
      else do
        let printed ← ofExcept value.print
        e.line (printed ++ ";")

/-- The emitter without statements of its own; its state is the writer. -/
def Emitter.plain (naming : Naming) (streamDepth : Nat) : Emitter Writer where
  naming
  streamDepth
  onWriter change := change
  region? _ _ := none
  intrinsic? _ := none
  isDrain _ := .ok false
  letEnv env _ := .ok env
  allocateEnv env _ _ := .ok env

end StreamSynth
