import StreamSynth.Grammar.Expr
import StreamSynth.Stmt
import StreamSynth.Token.Lexer

/-!
# The grammar of statements and pipelines

A pipeline is one function whose body is a block of statements. Semicolons may stand alone in a
block. Every expression and block is nested less deeply than the text has tokens, so the number
of tokens bounds the depth.
-/

namespace StreamSynth

namespace Grammar

open StreamSynth.Parser

def letStmt (expr : Parser Expr) (block : Parser Stmt) : Parser Stmt := do
  keyword .letIn
  let name ← ident
  symbol .assign
  let value ← expr
  let body ← block
  return .letIn name value body

def forStmt (expr : Parser Expr) (block : Parser Stmt) : Parser Stmt := do
  keyword .forLoop
  let (name, min, extent) ← parenthesized do
    let name ← ident
    symbol .comma
    let min ← expr
    symbol .comma
    let extent ← expr
    return (name, min, extent)
  let body ← block
  return .loop name min extent body

def ifStmt (expr : Parser Expr) (block : Parser Stmt) : Parser Stmt := do
  keyword .ifThen
  let condition ← parenthesized expr
  let thenCase ← block
  let elseCase ← optional do
    keyword .orElse
    block
  return match elseCase with
    | some elseCase => .ifThenElse condition thenCase elseCase
    | none => .ifThen condition thenCase

def allocateStmt (expr : Parser Expr) (block : Parser Stmt) : Parser Stmt := do
  keyword .allocate
  let name ← ident
  let type ← angleType
  let extents ← between .leftBracket .rightBracket (commaRow expr)
  let body ← block
  return .allocate name type extents body

def freeStmt : Parser Stmt := do
  keyword .free
  let name ← ident
  symbol .semicolon
  return .free name

def bound (expr : Parser Expr) : Parser Bound :=
  between .leftBracket .rightBracket do
    let min ← expr
    symbol .comma
    let extent ← expr
    return ⟨min, extent⟩

def realizeStmt (expr : Parser Expr) (block : Parser Stmt) : Parser Stmt := do
  keyword .realize
  let name ← ident
  let type ← angleType
  let bounds ← parenthesized (commaRow (bound expr))
  let body ← block
  return .realize name type bounds body

def word {α : Type} (keyword : Keyword) (value : α) : Parser α := do
  Parser.keyword keyword
  return value

def produceStmt (block : Parser Stmt) : Parser Stmt := do
  let make ← choice [word .produce Stmt.produce, word .consume Stmt.consume]
  let name ← ident
  let body ← block
  return make name body

def assertStmt (expr : Parser Expr) : Parser Stmt := do
  keyword .assert
  let (condition, message) ← parenthesized do
    let condition ← expr
    symbol .comma
    let message ← accept .somethingElse fun
      | .string text => some text
      | _ => none
    return (condition, message)
  symbol .semicolon
  return .assert condition message

def storeStmt (expr : Parser Expr) : Parser Stmt := do
  let name ← ident
  let index ← between .leftBracket .rightBracket expr
  symbol .assign
  let value ← expr
  symbol .semicolon
  return .store name value index

def provideStmt (expr : Parser Expr) : Parser Stmt := do
  let name ← ident
  let args ← arguments expr
  symbol .assign
  let value ← expr
  symbol .semicolon
  return .provide name value args

def evaluateStmt (expr : Parser Expr) : Parser Stmt := do
  let value ← expr
  symbol .semicolon
  return .evaluate value

def stmt (expr : Parser Expr) (block : Parser Stmt) : Parser Stmt :=
  choice [letStmt expr block, forStmt expr block, ifStmt expr block, allocateStmt expr block,
    freeStmt, realizeStmt expr block, produceStmt block, assertStmt expr, storeStmt expr,
    provideStmt expr, evaluateStmt expr]

def semicolons : Parser Unit := do
  let _ ← many (symbol .semicolon)
  return ()

/-- Blocks nested less than `depth` deep. -/
def block (expr : Parser Expr) : Nat → Parser Stmt
  | 0 => giveUp
  | depth + 1 => do
    let stmts ← between .leftBrace .rightBrace do
      semicolons
      many do
        let first ← stmt expr (block expr depth)
        semicolons
        return first
    return Stmt.ofList stmts

def param : Parser Param := do
  let kind ← choice [word .buffer ParamKind.buffer, word .scalar ParamKind.scalar]
  let name ← ident
  symbol .colon
  let type ← typeWord
  return ⟨kind, name, type⟩

/-- Pipelines whose expressions and blocks are nested less than `depth` deep. -/
def pipeline (depth : Nat) : Parser Pipeline := do
  keyword .func
  let name ← ident
  let params ← parenthesized (commaRowTrailing param)
  let body ← block (expr depth) depth
  return ⟨name, params, body⟩

def program (depth : Nat) : Parser Pipeline := do
  let result ← pipeline depth
  atEnd
  return result

end Grammar

structure SyntaxError where
  span : Span
  message : String
  deriving DecidableEq

/-- A pipeline, if the tokens of the source form one, and all errors of the source: first the
invalid pieces of text, then the miss that explains why the tokens form no pipeline. -/
structure Parsed where
  pipeline : Option Pipeline
  errors : List SyntaxError

namespace Grammar

def parseTokens (tokens : Input) : Outcome Pipeline := program (tokens.length + 1) tokens

def missError (sourceBytes : Nat) (miss : Miss) : SyntaxError :=
  ⟨miss.span.getD ⟨sourceBytes, sourceBytes⟩, miss.reason.display⟩

def lexError (e : LexError) : SyntaxError := ⟨e.span, e.message⟩

end Grammar

def parse (source : String) : Parsed :=
  let lexed := lex source
  let outcome := Grammar.parseTokens lexed.tokens
  let lexErrors := lexed.errors.map Grammar.lexError
  match outcome.result with
  | some (pipeline, _) => ⟨some pipeline, lexErrors⟩
  | none =>
    ⟨none, lexErrors ++ ((outcome.note none).map (Grammar.missError source.utf8ByteSize)).toList⟩

end StreamSynth
