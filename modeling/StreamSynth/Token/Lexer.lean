import StreamSynth.Number.Int64
import StreamSynth.Span
import StreamSynth.Text.ByteLength
import StreamSynth.Token.Basic

/-!
# Lexing

Source text is cut into lexemes from the left. Each lexeme is the longest prefix that forms a
blank, a comment or a token; where no prefix does, it is an invalid piece and lexing goes on
after it. Lexemes are never empty, and together they are the source text.
-/

namespace StreamSynth

inductive LexemeKind where
  | skipped
  | token (token : Token)
  | invalid
  deriving DecidableEq

/-- A non-empty piece of source text. -/
structure Lexeme where
  first : Char
  more : List Char
  kind : LexemeKind
  deriving DecidableEq

def Lexeme.text (l : Lexeme) : List Char := l.first :: l.more

namespace Lexer

def isBlank (c : Char) : Bool := c = ' ' || c = '\t' || c = '\r' || c = '\n'

def isWordStart (c : Char) : Bool := c.isAlpha || c = '_'

def isWordPart (c : Char) : Bool := c.isAlphanum || c = '_'

/-- The part of an identifier after its first character: word characters, and points that a word
character follows. -/
def identTail : List Char → List Char
  | [] => []
  | c :: rest =>
    if isWordPart c || (c = '.' && rest.head?.any isWordPart) then c :: identTail rest else []

/-- The body of a string literal up to its closing quote, and whether there is one. An escape
is a backslash with the character after it, unless that is a line end. -/
def stringBody : List Char → List Char × Bool
  | [] => ([], false)
  | '"' :: _ => ([], true)
  | '\\' :: c :: rest =>
    if c = '\n' then ([], false)
    else
      let (body, closed) := stringBody rest
      ('\\' :: c :: body, closed)
  | ['\\'] => ([], false)
  | c :: rest =>
    let (body, closed) := stringBody rest
    (c :: body, closed)

/-- The text a string body stands for. The escapes are a quote, a backslash and `n`. -/
def unescape : List Char → Option (List Char)
  | [] => some []
  | '\\' :: '"' :: rest => (unescape rest).map ('"' :: ·)
  | '\\' :: '\\' :: rest => (unescape rest).map ('\\' :: ·)
  | '\\' :: 'n' :: rest => (unescape rest).map ('\n' :: ·)
  | '\\' :: _ => none
  | c :: rest => (unescape rest).map (c :: ·)

def digitsValue (digits : List Char) : Nat := Nat.ofDigitChars 10 digits 0

/-- The power of ten after a fraction: its text, and its value. -/
def exponentPart (cs : List Char) : List Char × Int :=
  match cs with
  | mark :: rest =>
    if mark = 'e' || mark = 'E' then
      let (sign, rest) := match rest with
        | c :: tail => if c = '+' || c = '-' then ([c], tail) else ([], rest)
        | [] => ([], rest)
      let digits := rest.takeWhile Char.isDigit
      if digits.isEmpty then ([], 0)
      else
        let value : Int := digitsValue digits
        (mark :: sign ++ digits, if sign = ['-'] then -value else value)
    else ([], 0)
  | [] => ([], 0)

/-- A literal with a fraction: `fraction` are the digits after the point and `rest` what follows
them. A final `f` makes it a single-precision literal. -/
def fractionLexeme (first : Char) (whole fraction rest : List Char) : Lexeme :=
  let (power, exponent) := exponentPart rest
  let digits := digitsValue (first :: whole ++ fraction)
  let scale := exponent - fraction.length
  let text := whole ++ '.' :: fraction ++ power
  if (rest.drop power.length).head? = some 'f' then
    ⟨first, text ++ ['f'], .token (.single (.ofDecimalSingle digits scale))⟩
  else
    ⟨first, text, .token (.double (.ofDecimal digits scale))⟩

/-- A literal that starts with a digit. An integer has to fit in 64 bits. -/
def numberLexeme (first : Char) (cs : List Char) : Lexeme :=
  let whole := cs.takeWhile Char.isDigit
  let rest := cs.dropWhile Char.isDigit
  let fraction := match rest with
    | '.' :: tail => tail.takeWhile Char.isDigit
    | _ => []
  if fraction.isEmpty then
    match int64? (digitsValue (first :: whole)) with
    | some value => ⟨first, whole, .token (.int value)⟩
    | none => ⟨first, whole, .invalid⟩
  else
    fractionLexeme first whole fraction (rest.drop (fraction.length + 1))

def stringLexeme (first : Char) (cs : List Char) : Lexeme :=
  let (body, closed) := stringBody cs
  if closed then
    match unescape body with
    | some text => ⟨first, body ++ ['"'], .token (.string (String.ofList text))⟩
    | none => ⟨first, body ++ ['"'], .invalid⟩
  else ⟨first, body, .invalid⟩

/-- A keyword or an identifier. A word right before a point is an identifier, whatever its
spelling. -/
def wordLexeme (first : Char) (cs : List Char) : Lexeme :=
  let tail := identTail cs
  let word := String.ofList (first :: tail)
  if (cs.drop tail.length).head? = some '.' then ⟨first, tail, .token (.ident word)⟩
  else
    match Keyword.ofWord? word with
    | some keyword => ⟨first, tail, .token (.keyword keyword)⟩
    | none => ⟨first, tail, .token (.ident word)⟩

/-- A symbol of two characters, else of one, else an invalid character. -/
def symbolLexeme (first : Char) (cs : List Char) : Lexeme :=
  match cs.head?.bind (fun second => (Symbol.ofPair? first second).map (second, ·)) with
  | some (second, sign) => ⟨first, [second], .token (.symbol sign)⟩
  | none =>
    match Symbol.ofChar? first with
    | some sign => ⟨first, [], .token (.symbol sign)⟩
    | none => ⟨first, [], .invalid⟩

def next (first : Char) (cs : List Char) : Lexeme :=
  if isBlank first then ⟨first, cs.takeWhile isBlank, .skipped⟩
  else if first = '/' && cs.head? = some '/' then ⟨first, cs.takeWhile (· ≠ '\n'), .skipped⟩
  else if first.isDigit then numberLexeme first cs
  else if first = '"' then stringLexeme first cs
  else if isWordStart first then wordLexeme first cs
  else symbolLexeme first cs

def lexemes : List Char → List Lexeme
  | [] => []
  | first :: cs =>
    let lexeme := next first cs
    lexeme :: lexemes (cs.drop lexeme.more.length)
termination_by cs => cs.length
decreasing_by
  simp only [List.length_drop, List.length_cons]
  omega

end Lexer

structure LexError where
  span : Span
  text : List Char
  deriving DecidableEq

def LexError.message (e : LexError) : String :=
  "unexpected character: " ++ quoted (String.ofList e.text)

/-- The tokens of a source text and its invalid pieces, each in order. -/
structure Lexed where
  tokens : List (Token × Span)
  errors : List LexError

namespace Lexer

/-- Sorts lexemes into tokens and errors; the first one starts at `offset`. -/
def collect (offset : Nat) : List Lexeme → Lexed
  | [] => ⟨[], []⟩
  | lexeme :: rest =>
    let stop := offset + byteLength lexeme.text
    let later := collect stop rest
    match lexeme.kind with
    | .skipped => later
    | .token token => { later with tokens := (token, ⟨offset, stop⟩) :: later.tokens }
    | .invalid => { later with errors := ⟨⟨offset, stop⟩, lexeme.text⟩ :: later.errors }

end Lexer

def lex (source : String) : Lexed := Lexer.collect 0 (Lexer.lexemes source.toList)

end StreamSynth
