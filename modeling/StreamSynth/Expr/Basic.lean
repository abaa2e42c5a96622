import StreamSynth.Number.Binary
import StreamSynth.ScalarType

/-!
# Expressions

The expressions of a lowered pipeline: constants, names, conversions, operators, memory loads
and calls. Integer constants are 64-bit words whatever type they carry.
-/

namespace StreamSynth

inductive BinaryOp where
  | add
  | sub
  | mul
  | div
  | mod
  | min
  | max
  | eq
  | ne
  | lt
  | le
  | gt
  | ge
  | and
  | or
  deriving DecidableEq

namespace BinaryOp

def isLogical : BinaryOp → Bool
  | eq | ne | lt | le | gt | ge | and | or => true
  | add | sub | mul | div | mod | min | max => false

/-- The sign written between the operands; `min` and `max` are written as calls. -/
def sign? : BinaryOp → Option String
  | add => "+"
  | sub => "-"
  | mul => "*"
  | div => "/"
  | mod => "%"
  | eq => "=="
  | ne => "!="
  | lt => "<"
  | le => "<="
  | gt => ">"
  | ge => ">="
  | and => "&&"
  | or => "||"
  | min => none
  | max => none

end BinaryOp

inductive Expr where
  | int (value : Int64) (type : ScalarType)
  | float (value : Binary64) (type : ScalarType)
  | string (text : String)
  | var (name : String) (type : ScalarType)
  | cast (type : ScalarType) (arg : Expr)
  | binary (op : BinaryOp) (left right : Expr)
  | not (arg : Expr)
  | select (condition whenTrue whenFalse : Expr)
  | load (name : String) (type : ScalarType) (index : Expr)
  | call (name : String) (type : ScalarType) (args : List Expr)
  deriving Inhabited

namespace Expr

def ofInt (value : Int64) : Expr := int value .default

/-- The type of an expression. Arithmetic has the type of its left operand. -/
def type : Expr → ScalarType
  | int _ t | float _ t | var _ t | cast t _ | load _ t _ | call _ t _ => t
  | string _ => .handle
  | binary op a _ => if op.isLogical then .bool else a.type
  | not _ => .bool
  | select _ t _ => t.type

def int? : Expr → Option Int64
  | int value _ => some value
  | _ => none

def string? : Expr → Option String
  | string text => some text
  | _ => none

def callTo? (name : String) : Expr → Option (List Expr)
  | call callee _ args => if callee = name then some args else none
  | _ => none

theorem callTo?_eq_some_iff {name : String} {value : Expr} {args : List Expr} :
    value.callTo? name = some args ↔ ∃ type, value = .call name type args := by
  constructor
  · intro isCall
    unfold callTo? at isCall
    split at isCall
    · split at isCall
      · next same =>
        cases isCall
        subst same
        exact ⟨_, rfl⟩
      · cases isCall
    · cases isCall
  · rintro ⟨type, rfl⟩
    simp [callTo?]

end Expr

end StreamSynth
