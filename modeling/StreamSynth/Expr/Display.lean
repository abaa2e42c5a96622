import StreamSynth.Expr.Basic
import StreamSynth.Number.Shortest
import StreamSynth.Text.Join
import StreamSynth.Text.Quoted

/-!
# Display of expressions

The text of an expression in messages. Every infix operation is put between parentheses, so the
text reads back as the same tree.
-/

namespace StreamSynth.Expr

def displayBinary (op : BinaryOp) (left right : String) : String :=
  match op.sign? with
  | some sign => "(" ++ left ++ " " ++ sign ++ " " ++ right ++ ")"
  | none => (if op = .min then "min(" else "max(") ++ left ++ ", " ++ right ++ ")"

mutual

def display : Expr → String
  | int value _ => toString value.toInt
  | float value _ => value.literal
  | string text => quoted text
  | var name _ => name
  | cast type arg => "cast<" ++ type.display ++ ">(" ++ arg.display ++ ")"
  | binary op left right => displayBinary op left.display right.display
  | not arg => "!" ++ arg.display
  | select condition whenTrue whenFalse =>
    "select(" ++ condition.display ++ ", " ++ whenTrue.display ++ ", " ++ whenFalse.display ++ ")"
  | load name type index =>
    "load<" ++ type.display ++ ">(" ++ name ++ ", " ++ index.display ++ ")"
  | call name _ args => name ++ "(" ++ commaSeparated (displayAll args) ++ ")"

def displayAll : List Expr → List String
  | [] => []
  | arg :: rest => arg.display :: displayAll rest

end

end StreamSynth.Expr
