import StreamSynth.Expr.Basic
import StreamSynth.Grammar.Outcome

/-!
# The grammar of expressions

Five left-associative levels, loosest first: `||`, `&&`, comparisons, sums and products, over
signs and atoms. Type words stand after a colon or between angle brackets. The calls `min`, `max`
and `select` are operators and take a fixed number of arguments.
-/

namespace StreamSynth.Grammar

open StreamSynth.Parser

def ident : Parser String :=
  accept .somethingElse fun
    | .ident name => some name
    | _ => none

/-- A type is an identifier that names one. -/
def typeWord : Parser ScalarType :=
  refine ident fun name =>
    match ScalarType.ofKeyword? name with
    | some type => .ok type
    | none => .error ("unknown type `" ++ name ++ "`")

def typeNote : Parser ScalarType := do
  symbol .colon
  typeWord

def angleType : Parser ScalarType := between .less .greater typeWord

def arguments (expr : Parser Expr) : Parser (List Expr) :=
  between .leftParen .rightParen (commaRowTrailing expr)

def parenthesized {α : Type} (p : Parser α) : Parser α := between .leftParen .rightParen p

def literal : Parser Expr :=
  accept .somethingElse fun
    | .int value => some (.ofInt value)
    | .single value => some (.float value (.float 32))
    | .double value => some (.float value (.float 64))
    | .string text => some (.string text)
    | _ => none

def castExpr (expr : Parser Expr) : Parser Expr := do
  keyword .cast
  let type ← angleType
  let arg ← parenthesized expr
  return .cast type arg

def loadExpr (expr : Parser Expr) : Parser Expr := do
  keyword .load
  let type ← angleType
  let (name, index) ← parenthesized do
    let name ← ident
    symbol .comma
    let index ← expr
    return (name, index)
  return .load name type index

def arityMessage (name : String) (wanted found : Nat) : String :=
  "`" ++ name ++ "` takes " ++ toString wanted ++ " arguments, found " ++ toString found

/-- The expression a call stands for. An operator ignores a type written after it. -/
def callOf (name : String) (args : List Expr) (type : Option ScalarType) : Except String Expr :=
  if name = "min" ∨ name = "max" then
    match args with
    | [a, b] => .ok (.binary (if name = "min" then .min else .max) a b)
    | _ => .error (arityMessage name 2 args.length)
  else if name = "select" then
    match args with
    | [condition, whenTrue, whenFalse] => .ok (.select condition whenTrue whenFalse)
    | _ => .error (arityMessage name 3 args.length)
  else .ok (.call name (type.getD .default) args)

def callExpr (expr : Parser Expr) : Parser Expr :=
  refine (do
    let name ← ident
    let args ← arguments expr
    let type ← optional typeNote
    return (name, args, type)) fun (name, args, type) => callOf name args type

def varExpr : Parser Expr := do
  let name ← ident
  let type ← optional typeNote
  return .var name (type.getD .default)

def atom (expr : Parser Expr) : Parser Expr :=
  choice [literal, castExpr expr, loadExpr expr, callExpr expr, varExpr, parenthesized expr]

inductive Sign where
  | minus
  | bang
  deriving DecidableEq

def sign {α : Type} (symbol : Symbol) (value : α) : Parser α := do
  Parser.symbol symbol
  return value

/-- A minus before a constant belongs to the constant; elsewhere it subtracts from zero. -/
def negate : Expr → Expr
  | .int value type => .int (-value) type
  | .float value type => .float value.neg type
  | other => .binary .sub (.ofInt 0) other

def applySign : Sign → Expr → Expr
  | .minus, e => negate e
  | .bang, e => .not e

def signed (expr : Parser Expr) : Parser Expr := do
  let signs ← many (choice [sign .minus Sign.minus, sign .bang Sign.bang])
  let base ← atom expr
  return signs.foldr applySign base

/-- One left-associative level: operands with operators between them. -/
def level (operand : Parser Expr) (operator : Parser BinaryOp) : Parser Expr := do
  let first ← operand
  let rest ← many do
    let op ← operator
    let right ← operand
    return (op, right)
  return rest.foldl (fun left (op, right) => .binary op left right) first

def products (expr : Parser Expr) : Parser Expr :=
  level (signed expr) (choice [sign .star .mul, sign .slash .div, sign .percent .mod])

def sums (expr : Parser Expr) : Parser Expr :=
  level (products expr) (choice [sign .plus .add, sign .minus .sub])

def comparisons (expr : Parser Expr) : Parser Expr :=
  level (sums expr)
    (choice [sign .equal .eq, sign .notEqual .ne, sign .lessEqual .le, sign .greaterEqual .ge,
      sign .less .lt, sign .greater .gt])

def conjunctions (expr : Parser Expr) : Parser Expr :=
  level (comparisons expr) (sign .and .and)

def disjunctions (expr : Parser Expr) : Parser Expr :=
  level (conjunctions expr) (sign .or .or)

/-- Expressions nested less than `depth` deep. -/
def expr : Nat → Parser Expr
  | 0 => giveUp
  | depth + 1 => disjunctions (expr depth)

end StreamSynth.Grammar
