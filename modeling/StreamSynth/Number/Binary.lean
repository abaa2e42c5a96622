/-!
# Binary interchange formats

A number is stored as a word: a sign bit, a biased exponent field and a fraction field.
`BinaryFormat.read` gives the meaning of a word as a significand times a power of two, and
`BinaryFormat.nearest` gives the word of the number nearest to a ratio of naturals.
-/

namespace StreamSynth

/-- The widths of the fraction and exponent fields; one sign bit stands above them. -/
structure BinaryFormat where
  fractionBits : Nat
  exponentBits : Nat
  deriving DecidableEq

/-- What a word stands for. A finite word is `significand * 2 ^ exponent`, up to its sign. -/
inductive BinaryFormat.Meaning where
  | nan
  | infinite (negative : Bool)
  | finite (negative : Bool) (significand : Nat) (exponent : Int)
  deriving DecidableEq

namespace BinaryFormat

def single : BinaryFormat := ⟨23, 8⟩

def double : BinaryFormat := ⟨52, 11⟩

/-- The exponent field of infinities and of words that are no number. -/
def topField (f : BinaryFormat) : Nat := Nat.pow 2 f.exponentBits - 1

def minExponent (f : BinaryFormat) : Int :=
  1 - (Nat.pow 2 (f.exponentBits - 1) - 1 : Nat) - f.fractionBits

def infinity (f : BinaryFormat) : Nat := f.topField * Nat.pow 2 f.fractionBits

def quietNan (f : BinaryFormat) : Nat := f.infinity + Nat.pow 2 (f.fractionBits - 1)

def signBit (f : BinaryFormat) : Nat := Nat.pow 2 (f.fractionBits + f.exponentBits)

def withSign (f : BinaryFormat) (negative : Bool) (magnitude : Nat) : Nat :=
  if negative then f.signBit + magnitude else magnitude

def read (f : BinaryFormat) (word : Nat) : Meaning :=
  let negative := word.testBit (f.fractionBits + f.exponentBits)
  let unit := Nat.pow 2 f.fractionBits
  let field := word / unit % Nat.pow 2 f.exponentBits
  let fraction := word % unit
  if field = f.topField then
    if fraction = 0 then .infinite negative else .nan
  else if field = 0 then
    .finite negative fraction f.minExponent
  else
    .finite negative (unit + fraction) (f.minExponent + (field - 1 : Nat))

/-- The natural nearest to `num / den`; a half goes to the even neighbour. -/
def roundHalfEven (num den : Nat) : Nat :=
  let quotient := num / den
  let remainder := num % den
  if 2 * remainder < den then quotient
  else if den < 2 * remainder then quotient + 1
  else if quotient % 2 = 0 then quotient else quotient + 1

/-- `num / den * 2 ^ e` as a pair of naturals. -/
def scaleByTwo (num den : Nat) (e : Int) : Nat × Nat :=
  if 0 ≤ e then (num * Nat.pow 2 e.toNat, den) else (num, den * Nat.pow 2 (-e).toNat)

/-- The exponent of the leading bit of `num / den`, for positive `num` and `den`. -/
def leadingBit (num den : Nat) : Int :=
  let guess : Int := num.log2 - den.log2
  let (n, d) := scaleByTwo num den (-guess)
  if n < d then guess - 1 else guess

/-- The word of the magnitude nearest to `num / den`, half to even; infinity when it is too large.
A carry out of the fraction field lands in the exponent field, which is where it belongs. -/
def nearest (f : BinaryFormat) (num den : Nat) : Nat :=
  if num = 0 then 0
  else
    let exponent := max (leadingBit num den - f.fractionBits) f.minExponent
    let (n, d) := scaleByTwo num den (-exponent)
    let word := (exponent - f.minExponent).toNat * Nat.pow 2 f.fractionBits + roundHalfEven n d
    if f.infinity ≤ word then f.infinity else word

def nearestScaled (f : BinaryFormat) (significand : Nat) (exponent : Int) : Nat :=
  let (n, d) := scaleByTwo significand 1 exponent
  f.nearest n d

/-- The word of the magnitude nearest to `digits * 10 ^ exponent`. Exponents far outside the
format are settled first: above the bound the value exceeds every finite number, and below it
the value is less than half of the least positive one. -/
def nearestDecimal (f : BinaryFormat) (digits : Nat) (exponent : Int) : Nat :=
  if digits = 0 then 0
  else
    let leading : Int := (Nat.toDigits 10 digits).length + exponent
    if Nat.pow 2 (f.exponentBits - 1) < leading then f.infinity
    else if leading < f.minExponent then 0
    else if 0 ≤ exponent then f.nearest (digits * Nat.pow 10 exponent.toNat) 1
    else f.nearest digits (Nat.pow 10 (-exponent).toNat)

def convert (source target : BinaryFormat) (word : Nat) : Nat :=
  match source.read word with
  | .nan => target.quietNan
  | .infinite negative => target.withSign negative target.infinity
  | .finite negative significand exponent =>
    target.withSign negative (target.nearestScaled significand exponent)

/-- Numeric equality of words: a word that is no number differs from every word, and the two
zeros are equal. -/
def sameNumber (f : BinaryFormat) (a b : Nat) : Bool :=
  match f.read a, f.read b with
  | .nan, _ => false
  | _, .nan => false
  | .finite _ 0 _, .finite _ 0 _ => true
  | x, y => x == y

end BinaryFormat

/-- A double-precision number, kept as its word. -/
structure Binary64 where
  bits : UInt64
  deriving DecidableEq, Inhabited

namespace Binary64

def neg (x : Binary64) : Binary64 := ⟨x.bits ^^^ 0x8000000000000000⟩

def toSingle (x : Binary64) : Nat := BinaryFormat.double.convert .single x.bits.toNat

/-- The double-precision number equal to a single-precision word. -/
def ofSingle (word : Nat) : Binary64 := ⟨(BinaryFormat.single.convert .double word).toUInt64⟩

def ofDecimal (digits : Nat) (exponent : Int) : Binary64 :=
  ⟨(BinaryFormat.double.nearestDecimal digits exponent).toUInt64⟩

/-- The single-precision number nearest to `digits * 10 ^ exponent`, widened. -/
def ofDecimalSingle (digits : Nat) (exponent : Int) : Binary64 :=
  ofSingle (BinaryFormat.single.nearestDecimal digits exponent)

end Binary64

end StreamSynth
