import StreamSynth.Number.Shortest

/-!
# Numbers in configuration text

An integer that fits in 64 bits is read exactly. Any other number is real: its leading digits are
rounded once and then scaled by powers of ten, rounding after each step.
-/

namespace StreamSynth

/-- What is wrong with a configuration text, as far as its form goes. -/
inductive JsonError where
  | endInValue
  | endInObject
  | endInList
  | endInString
  | expectedColon
  | expectedListComma
  | expectedObjectComma
  | expectedValue
  | expectedWord
  | invalidEscape
  | invalidNumber
  | numberOutOfRange
  | controlCharacter
  | keyNotString
  | loneSurrogate
  | brokenSurrogate
  | trailingComma
  | trailingCharacters
  | unknownField (name : String) (known : List String)
  | duplicateField (name : String)
  | wrongType (found wanted : String)
  | wrongValue (found wanted : String)
  deriving DecidableEq

inductive JsonNumber where
  | natural (value : Nat)
  | negative (value : Int)
  | real (value : Binary64)
  deriving DecidableEq

namespace BinaryFormat

def product (f : BinaryFormat) (a b : Nat) : Nat :=
  match f.read a, f.read b with
  | .finite _ m q, .finite _ n r => f.nearestScaled (m * n) (q + r)
  | _, _ => f.infinity

def quotient (f : BinaryFormat) (a b : Nat) : Nat :=
  match f.read a, f.read b with
  | .finite _ m q, .finite _ n r =>
    let (num, den) := scaleByTwo m n (q - r)
    f.nearest num den
  | _, _ => f.infinity

end BinaryFormat

namespace JsonNumber

/-- The largest integer that is read exactly. -/
def maxExact : Nat := UInt64.size - 1

def powerOfTen (n : Nat) : Nat := BinaryFormat.double.nearestDecimal 1 n

/-- Scales a word by a power of ten. A power that is too small for one step is applied in steps
of `10 ^ 308`, which reach zero after a few. -/
def scale : Nat → Nat → Int → Except JsonError Nat
  | 0, word, _ => .ok word
  | steps + 1, word, exponent =>
    if exponent.natAbs ≤ 308 then
      if 0 ≤ exponent then
        let scaled := BinaryFormat.double.product word (powerOfTen exponent.toNat)
        if scaled = BinaryFormat.double.infinity then .error .numberOutOfRange else .ok scaled
      else .ok (BinaryFormat.double.quotient word (powerOfTen exponent.natAbs))
    else if word = 0 then .ok 0
    else if 0 ≤ exponent then .error .numberOutOfRange
    else scale steps (BinaryFormat.double.quotient word (powerOfTen 308)) (exponent + 308)

def realOf (negative : Bool) (significand : Nat) (exponent : Int) : Except JsonError JsonNumber :=
  match scale 8 (BinaryFormat.double.nearest significand 1) exponent with
  | .ok word => .ok (.real ⟨(BinaryFormat.double.withSign negative word).toUInt64⟩)
  | .error e => .error e

/-- Adds digits to a significand while it stays exact; also the number of digits left out. -/
def accumulate (significand : Nat) : List Char → Nat × Nat
  | [] => (significand, 0)
  | digit :: rest =>
    let next := significand * 10 + (digit.toNat - '0'.toNat)
    if next ≤ maxExact then accumulate next rest else (significand, rest.length + 1)

def readExponent (negative : Bool) (significand : Nat) (before : Int) (cs : List Char) :
    Except JsonError (JsonNumber × List Char) :=
  let (down, cs) := match cs with
    | '+' :: rest => (false, rest)
    | '-' :: rest => (true, rest)
    | _ => (false, cs)
  match cs with
  | [] => .error .endInValue
  | c :: _ =>
    if !c.isDigit then .error .invalidNumber
    else
      let digits := cs.takeWhile Char.isDigit
      let rest := cs.dropWhile Char.isDigit
      let power := Nat.ofDigitChars 10 digits 0
      if power < 0x80000000 then do
        let number ← realOf negative significand (if down then before - power else before + power)
        return (number, rest)
      else if significand ≠ 0 && !down then .error .numberOutOfRange
      else do
        let number ← realOf negative 0 0
        return (number, rest)

def readPower (negative : Bool) (significand : Nat) (exponent : Int) (cs : List Char) :
    Except JsonError (JsonNumber × List Char) :=
  match cs with
  | c :: rest =>
    if c = 'e' || c = 'E' then readExponent negative significand exponent rest
    else do
      let number ← realOf negative significand exponent
      return (number, cs)
  | [] => do
    let number ← realOf negative significand exponent
    return (number, cs)

def readFraction (negative : Bool) (significand : Nat) (exponent : Int) (cs : List Char) :
    Except JsonError (JsonNumber × List Char) :=
  let digits := cs.takeWhile Char.isDigit
  let rest := cs.dropWhile Char.isDigit
  if digits.isEmpty then .error (if rest.isEmpty then .endInValue else .invalidNumber)
  else
    let (significand, dropped) := accumulate significand digits
    readPower negative significand (exponent - (digits.length - dropped : Nat)) rest

def readTail (negative : Bool) (significand dropped : Nat) (cs : List Char) :
    Except JsonError (JsonNumber × List Char) :=
  match cs with
  | '.' :: rest => readFraction negative significand dropped rest
  | _ =>
    let isReal := dropped ≠ 0 ∨ cs.head? = some 'e' ∨ cs.head? = some 'E'
    if isReal then readPower negative significand dropped cs
    else if !negative then .ok (.natural significand, cs)
    else if significand = 0 ∨ 0x8000000000000000 < significand then do
      let number ← realOf true significand 0
      return (number, cs)
    else .ok (.negative (-significand), cs)

/-- Reads a number after its sign. A leading zero stands alone. -/
def read (negative : Bool) (cs : List Char) : Except JsonError (JsonNumber × List Char) :=
  match cs with
  | [] => .error .endInValue
  | c :: rest =>
    if c = '0' then
      if rest.head?.any Char.isDigit then .error .invalidNumber
      else readTail negative 0 0 rest
    else if c.isDigit then
      let (significand, dropped) := accumulate 0 (cs.takeWhile Char.isDigit)
      readTail negative significand dropped (cs.dropWhile Char.isDigit)
    else .error .invalidNumber

def display : JsonNumber → String
  | natural value => "integer `" ++ toString value ++ "`"
  | negative value => "integer `" ++ toString value ++ "`"
  | real value =>
    "floating point `" ++ BinaryFormat.double.text .message value.bits.toNat ++ "`"

end JsonNumber

end StreamSynth
