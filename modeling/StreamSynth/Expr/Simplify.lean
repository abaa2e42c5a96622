import StreamSynth.Expr.Basic
import StreamSynth.Number.Int64

/-!
# Simplification of size expressions

Integer constants are folded and the identities of addition and multiplication are applied,
bottom-up; everything else stays symbolic. Sums, differences and products that leave the 64-bit
range stay symbolic too. A quotient or remainder whose quotient leaves that range has no result
at all, and neither has an expression that contains one: `simplify` is then `none`.
-/

namespace StreamSynth

inductive Folded where
  | value (result : Int64)
  | symbolic
  | overflow
  deriving DecidableEq

namespace Folded

/-- An exact result, kept symbolic when it does not fit. -/
def checked (result : Int) : Folded :=
  match int64? result with
  | some word => value word
  | none => symbolic

/-- The result of a division by `y`, given by `result`. -/
def division (x y : Int64) (result : Int → Int → Int) : Folded :=
  if y = 0 then symbolic
  else if (int64? (x.toInt / y.toInt)).isNone then overflow
  else checked (result x.toInt y.toInt)

end Folded

/-- Folds an operation on constants. Division is Euclidean: the remainder is never negative. -/
def BinaryOp.fold (op : BinaryOp) (x y : Int64) : Folded :=
  match op with
  | add => .checked (x.toInt + y.toInt)
  | sub => .checked (x.toInt - y.toInt)
  | mul => .checked (x.toInt * y.toInt)
  | div => .division x y (· / ·)
  | mod => .division x y (· % ·)
  | min => .checked (Min.min x.toInt y.toInt)
  | max => .checked (Max.max x.toInt y.toInt)
  | eq | ne | lt | le | gt | ge | and | or => .symbolic

/-- The value of an integer after a conversion to an integer type: whether it is non-zero for
truth values, and the representative modulo `2 ^ bits` in the range of the type otherwise. -/
def ScalarType.wrap (t : ScalarType) (value : Int) : Int :=
  if t = .bool then (if value = 0 then 0 else 1)
  else if t.bits = 0 ∨ 64 ≤ t.bits then value
  else if t.kind = .int then value.bmod (Nat.pow 2 t.bits.toNat)
  else value % Nat.pow 2 t.bits.toNat

namespace Expr

/-- The wider of the types of two operands, the left one when they are equally wide. -/
def widerType (a b : Expr) : ScalarType :=
  if b.type.bits ≤ a.type.bits then a.type else b.type

/-- Applies the identities of the operators: `1 * b`, `a * 1`, `0 * b`, `a * 0`, `0 + b`,
`a + 0`, `a - 0` and `a / 1`. -/
def applyIdentity (op : BinaryOp) (a b : Expr) : Expr :=
  match op with
  | .mul =>
    if a.int? = some 1 then b
    else if b.int? = some 1 then a
    else if a.int? = some 0 ∨ b.int? = some 0 then int 0 (widerType a b)
    else binary .mul a b
  | .add =>
    if a.int? = some 0 then b
    else if b.int? = some 0 then a
    else binary .add a b
  | .sub => if b.int? = some 0 then a else binary .sub a b
  | .div => if b.int? = some 1 then a else binary .div a b
  | op => binary op a b

def simplifyBinary (op : BinaryOp) (a b : Expr) : Option Expr :=
  match a.int?, b.int? with
  | some x, some y =>
    match op.fold x y with
    | .value result => some (int result (widerType a b))
    | .symbolic => some (applyIdentity op a b)
    | .overflow => none
  | _, _ => some (applyIdentity op a b)

def simplifyCast (t : ScalarType) (arg : Expr) : Expr :=
  match arg with
  | int value _ =>
    if t.isFloat || t.isHandle then cast t arg
    else int (Int64.ofInt (t.wrap value.toInt)) t
  | _ => cast t arg

mutual

def simplify : Expr → Option Expr
  | binary op a b => do
    let a ← a.simplify
    let b ← b.simplify
    simplifyBinary op a b
  | cast t arg => do
    let arg ← arg.simplify
    return simplifyCast t arg
  | not arg => do
    let arg ← arg.simplify
    return not arg
  | select condition whenTrue whenFalse => do
    let condition ← condition.simplify
    let whenTrue ← whenTrue.simplify
    let whenFalse ← whenFalse.simplify
    return select condition whenTrue whenFalse
  | load name t index => do
    let index ← index.simplify
    return load name t index
  | call name t args => do
    let args ← simplifyAll args
    return call name t args
  | int value t => some (int value t)
  | float value t => some (float value t)
  | string text => some (string text)
  | var name t => some (var name t)

def simplifyAll : List Expr → Option (List Expr)
  | [] => some []
  | arg :: rest => do
    let arg ← arg.simplify
    let rest ← simplifyAll rest
    return arg :: rest

end

def times (a b : Expr) : Option Expr := (binary .mul a b).simplify

/-- The simplified product of all factors, starting from one. -/
def product (factors : List Expr) : Option Expr := factors.foldlM times (ofInt 1)

def constInt? (e : Expr) : Option Int64 := e.simplify.bind int?

end Expr

end StreamSynth
