import StreamSynth.Span
import StreamSynth.Text.Join
import StreamSynth.Token.Basic

/-!
# Parsing with a remembered miss

A parser reads a prefix of the tokens that are left. Whether it succeeds, and with what, depends
on these tokens alone. Beside that, every attempt that fails leaves a trace: the miss that
explains the failure of the whole text is the one found furthest in the text, and misses at the
same place are united. `Outcome.note` says what an attempt does to the miss remembered so far.
-/

namespace StreamSynth

abbrev Input := List (Token × Span)

inductive Expected where
  | token (token : Token)
  | somethingElse
  | endOfInput
  deriving DecidableEq

def Expected.display : Expected → String
  | token t => "'" ++ t.display ++ "'"
  | somethingElse => "something else"
  | endOfInput => "end of input"

/-- Why parsing failed: a message of its own, or what was expected and the token found there. -/
inductive Reason where
  | message (text : String)
  | expected (entries : List Expected) (found : Option Token)
  deriving DecidableEq

/-- A failure with the number of tokens left where it happened. A failure at the end of the text
has no span of its own. -/
structure Miss where
  left : Nat
  span : Option Span
  reason : Reason
  deriving DecidableEq

namespace Expected

def insert (entries : List Expected) (entry : Expected) : List Expected :=
  if entry ∈ entries then entries else entries ++ [entry]

/-- Unites two lists, starting from the longer one. -/
def union (old new : List Expected) : List Expected :=
  if old.length < new.length then old.foldl insert new else new.foldl insert old

/-- Alternatives in a row: `a`, or `a, or b`, or `a, b, or c`. -/
def alternatives (entries : List Expected) : String :=
  match entries.reverse with
  | [] => ""
  | [only] => only.display
  | last :: before =>
    commaSeparated (before.reverse.map display ++ ["or " ++ last.display])

end Expected

def Reason.display : Reason → String
  | message text => text
  | expected entries found =>
    let place := match found with
      | some token => "'" ++ token.display ++ "'"
      | none => "end of input"
    "found " ++ place ++ " expected " ++ Expected.alternatives entries

namespace Miss

def here (input : Input) (entry : Expected) : Miss :=
  ⟨input.length, input.head?.map (·.2), .expected [entry] (input.head?.map (·.1))⟩

/-- Remembers that `entry` was expected at the start of `input`. -/
def expect (input : Input) (entry : Expected) (remembered : Option Miss) : Option Miss :=
  match remembered with
  | none => some (here input entry)
  | some miss =>
    if input.length < miss.left then some (here input entry)
    else if miss.left < input.length then some miss
    else
      match miss.reason with
      | .message _ => some miss
      | .expected entries found =>
        some { miss with reason := .expected (Expected.insert entries entry) found }

/-- The reason that stays when two misses meet at one place: a message wins over expected
entries, and the older message over the newer. -/
def meet (old new : Reason) : Reason :=
  match old, new with
  | .message text, _ => .message text
  | .expected _ _, .message text => .message text
  | .expected entries found, .expected others _ => .expected (Expected.union entries others) found

/-- Remembers another miss; at one place the older span is kept. -/
def merge (new : Miss) (remembered : Option Miss) : Option Miss :=
  match remembered with
  | none => some new
  | some old =>
    if new.left < old.left then some new
    else if old.left < new.left then some old
    else some { old with reason := meet old.reason new.reason }

end Miss

/-- The outcome of an attempt: the value with the tokens left after it, unless it failed, and
what becomes of the remembered miss. -/
structure Outcome (α : Type) where
  result : Option (α × Input)
  note : Option Miss → Option Miss

def Parser (α : Type) := Input → Outcome α

namespace Parser

variable {α β : Type}

def succeed (value : α) : Parser α := fun input => ⟨some (value, input), id⟩

def andThen (p : Parser α) (next : α → Parser β) : Parser β := fun input =>
  let first := p input
  match first.result with
  | none => ⟨none, first.note⟩
  | some (value, rest) =>
    let second := next value rest
    ⟨second.result, fun miss => second.note (first.note miss)⟩

instance : Monad Parser where
  pure := succeed
  bind := andThen

/-- Fails without a trace. -/
def giveUp : Parser α := fun _ => ⟨none, id⟩

def expected (entry : Expected) : Parser α := fun input => ⟨none, Miss.expect input entry⟩

/-- Reads one token that `view` accepts. -/
def accept (entry : Expected) (view : Token → Option α) : Parser α := fun input =>
  match input with
  | [] => expected entry input
  | (token, _) :: rest =>
    match view token with
    | some value => ⟨some (value, rest), id⟩
    | none => expected entry input

def exactly (token : Token) : Parser Unit :=
  accept (.token token) fun found => if found = token then some () else none

def keyword (word : Keyword) : Parser Unit := exactly (.keyword word)

def symbol (sign : Symbol) : Parser Unit := exactly (.symbol sign)

def atEnd : Parser Unit := fun input =>
  if input.isEmpty then ⟨some ((), input), id⟩ else expected .endOfInput input

def orElse (p q : Parser α) : Parser α := fun input =>
  let first := p input
  match first.result with
  | some _ => first
  | none =>
    let second := q input
    ⟨second.result, fun miss => second.note (first.note miss)⟩

def choice : List (Parser α) → Parser α
  | [] => giveUp
  | [p] => p
  | p :: q :: rest => orElse p (choice (q :: rest))

def optional (p : Parser α) : Parser (Option α) := fun input =>
  let first := p input
  match first.result with
  | some (value, rest) => ⟨some (some value, rest), first.note⟩
  | none => ⟨some (none, input), first.note⟩

/-- Repeats `p` until it fails, at most `bound` times. -/
def repeatUpTo (p : Parser α) : Nat → Parser (List α)
  | 0 => succeed []
  | bound + 1 => fun input =>
    let first := p input
    match first.result with
    | none => ⟨some ([], input), first.note⟩
    | some (value, rest) =>
      let later := repeatUpTo p bound rest
      ⟨later.result.map fun (values, left) => (value :: values, left),
        fun miss => later.note (first.note miss)⟩

/-- Repeats `p` until it fails. A `p` that reads at least one token each time never meets the
bound. -/
def many (p : Parser α) : Parser (List α) := fun input => repeatUpTo p (input.length + 1) input

/-- One separator with the item after it, where the item may be missing if `trailing`. -/
def separated (p : Parser α) (separator : Parser Unit) (trailing : Bool) :
    Parser (Option α) := do
  separator
  if trailing then optional p else return some (← p)

/-- Items after the first: each follows a separator. A missing item ends the row. -/
def rowUpTo (p : Parser α) (separator : Parser Unit) (trailing : Bool) : Nat → Parser (List α)
  | 0 => succeed []
  | bound + 1 => fun input =>
    let first := separated p separator trailing input
    match first.result with
    | none => ⟨some ([], input), first.note⟩
    | some (none, rest) => ⟨some ([], rest), first.note⟩
    | some (some value, rest) =>
      let later := rowUpTo p separator trailing bound rest
      ⟨later.result.map fun (values, left) => (value :: values, left),
        fun miss => later.note (first.note miss)⟩

def commaRow (p : Parser α) : Parser (List α) := do
  let first ← p
  let rest ← fun input => rowUpTo p (symbol .comma) false (input.length + 1) input
  return first :: rest

/-- Any number of items with commas between them and perhaps one after the last. -/
def commaRowTrailing (p : Parser α) : Parser (List α) := fun input =>
  let first := p input
  match first.result with
  | none => ⟨some ([], input), first.note⟩
  | some (value, rest) =>
    let later := rowUpTo p (symbol .comma) true (rest.length + 1) rest
    ⟨later.result.map fun (values, left) => (value :: values, left),
      fun miss => later.note (first.note miss)⟩

def between (opening closing : Symbol) (p : Parser α) : Parser α := do
  symbol opening
  let value ← p
  symbol closing
  return value

/-- The span from the first token of `input` to the last one before `rest`. -/
def spanRead (input rest : Input) : Option Span :=
  let read := input.take (input.length - rest.length)
  match read.head?, read.getLast? with
  | some (_, first), some (_, last) => some ⟨first.start, last.stop⟩
  | _, _ => none

/-- Maps the value of `p`, where the mapping may refuse it with a message. What `p` itself missed
counts as missed where `p` started; when `p` fails, what was missed before is forgotten. -/
def refine (p : Parser α) (view : α → Except String β) : Parser β := fun input =>
  let inner := p input
  match inner.result with
  | none => ⟨none, fun _ => inner.note none⟩
  | some (value, rest) =>
    match view value with
    | .ok refined =>
      ⟨some (refined, rest), fun miss =>
        match inner.note none with
        | none => miss
        | some new => Miss.merge { new with left := input.length } miss⟩
    | .error text =>
      ⟨none, Miss.merge ⟨input.length, spanRead input rest, .message text⟩⟩

end Parser

end StreamSynth
