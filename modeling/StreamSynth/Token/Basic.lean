import StreamSynth.Number.Shortest
import StreamSynth.Text.Quoted

/-!
# Tokens

The words of the source language. A keyword or symbol stands for its spelling; a literal
carries its value and an identifier its text.
-/

namespace StreamSynth

inductive Keyword where
  | func
  | buffer
  | scalar
  | letIn
  | forLoop
  | ifThen
  | orElse
  | allocate
  | free
  | realize
  | produce
  | consume
  | assert
  | cast
  | load
  deriving DecidableEq

namespace Keyword

def spelling : Keyword → String
  | func => "func"
  | buffer => "buffer"
  | scalar => "scalar"
  | letIn => "let"
  | forLoop => "for"
  | ifThen => "if"
  | orElse => "else"
  | allocate => "allocate"
  | free => "free"
  | realize => "realize"
  | produce => "produce"
  | consume => "consume"
  | assert => "assert"
  | cast => "cast"
  | load => "load"

def all : List Keyword :=
  [func, buffer, scalar, letIn, forLoop, ifThen, orElse, allocate, free, realize, produce,
   consume, assert, cast, load]

def ofWord? (word : String) : Option Keyword := all.find? (·.spelling = word)

end Keyword

inductive Symbol where
  | leftParen
  | rightParen
  | leftBrace
  | rightBrace
  | leftBracket
  | rightBracket
  | comma
  | semicolon
  | colon
  | assign
  | equal
  | notEqual
  | less
  | lessEqual
  | greater
  | greaterEqual
  | and
  | or
  | bang
  | plus
  | minus
  | star
  | slash
  | percent
  deriving DecidableEq

namespace Symbol

def spelling : Symbol → String
  | leftParen => "("
  | rightParen => ")"
  | leftBrace => "\x7b"
  | rightBrace => "\x7d"
  | leftBracket => "["
  | rightBracket => "]"
  | comma => ","
  | semicolon => ";"
  | colon => ":"
  | assign => "="
  | equal => "=="
  | notEqual => "!="
  | less => "<"
  | lessEqual => "<="
  | greater => ">"
  | greaterEqual => ">="
  | and => "&&"
  | or => "||"
  | bang => "!"
  | plus => "+"
  | minus => "-"
  | star => "*"
  | slash => "/"
  | percent => "%"

def ofPair? : Char → Char → Option Symbol
  | '=', '=' => some equal
  | '!', '=' => some notEqual
  | '<', '=' => some lessEqual
  | '>', '=' => some greaterEqual
  | '&', '&' => some and
  | '|', '|' => some or
  | _, _ => none

def ofChar? : Char → Option Symbol
  | '(' => some leftParen
  | ')' => some rightParen
  | '\x7b' => some leftBrace
  | '\x7d' => some rightBrace
  | '[' => some leftBracket
  | ']' => some rightBracket
  | ',' => some comma
  | ';' => some semicolon
  | ':' => some colon
  | '=' => some assign
  | '<' => some less
  | '>' => some greater
  | '!' => some bang
  | '+' => some plus
  | '-' => some minus
  | '*' => some star
  | '/' => some slash
  | '%' => some percent
  | _ => none

end Symbol

inductive Token where
  | keyword (word : Keyword)
  | symbol (sign : Symbol)
  | int (value : Int64)
  | single (value : Binary64)
  | double (value : Binary64)
  | string (text : String)
  | ident (name : String)
  deriving DecidableEq

namespace Token

def display : Token → String
  | keyword word => word.spelling
  | symbol sign => sign.spelling
  | int value => toString value.toInt
  | single value => value.plain ++ "f"
  | double value => value.plain
  | string text => quoted text
  | ident name => name

end Token

end StreamSynth
