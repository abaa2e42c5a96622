import StreamSynth.Expr.Basic

/-!
# Statements and pipelines

The body of a lowered pipeline. A sequence is a pair of statements; a longer one nests to the
right. A producer whose name marks it as a hardware region is what becomes a kernel.
-/

namespace StreamSynth

/-- The interval of one realized dimension, from `min` on for `extent` points. -/
structure Bound where
  min : Expr
  extent : Expr

inductive Stmt where
  | letIn (name : String) (value : Expr) (body : Stmt)
  | assert (condition : Expr) (message : String)
  | produce (name : String) (body : Stmt)
  | consume (name : String) (body : Stmt)
  | loop (name : String) (min extent : Expr) (body : Stmt)
  | store (name : String) (value index : Expr)
  | provide (name : String) (value : Expr) (args : List Expr)
  | allocate (name : String) (type : ScalarType) (extents : List Expr) (body : Stmt)
  | free (name : String)
  | realize (name : String) (type : ScalarType) (bounds : List Bound) (body : Stmt)
  | block (first rest : Stmt)
  | ifThen (condition : Expr) (thenCase : Stmt)
  | ifThenElse (condition : Expr) (thenCase elseCase : Stmt)
  | evaluate (value : Expr)
  deriving Inhabited

namespace Stmt

def noOp : Stmt := evaluate (.ofInt 0)

/-- A list of statements as blocks nested to the right. -/
def ofList : List Stmt → Stmt
  | [] => noOp
  | [stmt] => stmt
  | stmt :: next :: rest => block stmt (ofList (next :: rest))

/-- The statement that stands first in program order. -/
def leading : Stmt → Stmt
  | block first _ => first.leading
  | stmt => stmt

end Stmt

inductive ParamKind where
  | buffer
  | scalar
  deriving DecidableEq

structure Param where
  kind : ParamKind
  name : String
  type : ScalarType
  deriving DecidableEq

structure Pipeline where
  name : String
  params : List Param
  body : Stmt

end StreamSynth
