import StreamSynth.Emit.Identifier
import StreamSynth.Expr.Display
import StreamSynth.LoweringError

/-!
# Expressions of the generated code

Expressions are printed with parentheses around every operation. Calls that stand for whole
statements of the host are refused inside expressions.
-/

namespace StreamSynth

/-- Moves a window of an image between host memory and a stream. -/
def streamSubimage : String := "stream_subimage"

def bufferToStencil : String := "buffer_to_stencil"

def addressOf : String := "address_of"

namespace Expr

def printBinary (op : BinaryOp) (left right : String) : String :=
  match op.sign? with
  | some sign => "(" ++ left ++ " " ++ sign ++ " " ++ right ++ ")"
  | none => (if op = .min then "std::min(" else "std::max(") ++ left ++ ", " ++ right ++ ")"

mutual

def print : Expr → Except LoweringError String
  | int value _ => .ok (toString value.toInt)
  | float value type =>
    .ok (if type.bits = 64 then value.literal else value.singleLiteral ++ "f")
  | string text => .ok (quoted text)
  | var name _ => .ok (identifier name)
  | cast type arg => do
    let arg ← arg.print
    return "((" ++ type.generated ++ ")(" ++ arg ++ "))"
  | binary op left right => do
    let left ← left.print
    let right ← right.print
    return printBinary op left right
  | not arg => do
    let arg ← arg.print
    return "!(" ++ arg ++ ")"
  | select condition whenTrue whenFalse => do
    let condition ← condition.print
    let whenTrue ← whenTrue.print
    let whenFalse ← whenFalse.print
    return "(" ++ condition ++ " ? " ++ whenTrue ++ " : " ++ whenFalse ++ ")"
  | load name _ index => do
    let index ← index.print
    return identifier name ++ "[" ++ index ++ "]"
  | call name _ args =>
    if name = addressOf then
      match args with
      | [load source type index] => do
        let index ← index.print
        return "((" ++ type.generated ++ " *)" ++ identifier source ++ " + " ++ index ++ ")"
      | _ =>
        .error (.malformed addressOf
          ("expected a single load argument, found " ++ toString args.length ++ " arguments"))
    else if name = streamSubimage ∨ name = bufferToStencil then
      .error (.malformed name "only valid as a statement in the host driver")
    else do
      let args ← printAll args
      return identifier name ++ "(" ++ commaSeparated args ++ ")"

def printAll : List Expr → Except LoweringError (List String)
  | [] => .ok []
  | arg :: rest => do
    let arg ← arg.print
    let rest ← printAll rest
    return arg :: rest

end

def printArgs (args : List Expr) : Except LoweringError String := do
  let args ← printAll args
  return commaSeparated args

end Expr

end StreamSynth
