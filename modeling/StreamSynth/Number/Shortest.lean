import StreamSynth.Number.Binary

/-!
# Shortest decimals

The shortest decimal of a number is the one with the fewest digits among those that read back
as the number; of two with equally many digits it is the nearer, and a style of writing says
which one when both are equally near. All tests are exact comparisons of naturals.
-/

namespace StreamSynth

/-- Where a value half way between two decimals goes. -/
inductive Tie where
  | up
  | even
  deriving DecidableEq

/-- Whether a value `remainder / unit` above `down` goes to `down + 1`. -/
def Tie.goesUp (tie : Tie) (down remainder unit : Nat) : Bool :=
  unit < 2 * remainder || (unit = 2 * remainder && (tie = .up || down % 2 = 1))

structure Decimal where
  digits : Nat
  exponent : Int
  deriving DecidableEq

namespace Decimal

def digitChars (n : Nat) : List Char := Nat.toDigits 10 n

/-- Moves trailing zeros of the digits into the exponent. -/
def normalize : Nat → Decimal → Decimal
  | 0, d => d
  | fuel + 1, d =>
    if d.digits ≠ 0 ∧ d.digits % 10 = 0 then normalize fuel ⟨d.digits / 10, d.exponent + 1⟩ else d

/-- The number of digits of `num / den` before the point, for positive `num` and `den`; zero or
negative when the value is below one. -/
def pointPosition (num den : Nat) : Int :=
  let guess : Int := (digitChars num).length - (digitChars den).length
  let (n, d) :=
    if 0 ≤ guess then (num, den * Nat.pow 10 guess.toNat)
    else (num * Nat.pow 10 (-guess).toNat, den)
  if d ≤ n then guess + 1 else guess

/-- The reals that read back as one number, in units of a quarter of its last place: from `low`
to `high` around `value`, each unit being `num / den`. -/
structure Interval where
  low : Nat
  value : Nat
  high : Nat
  num : Nat
  den : Nat
  closed : Bool

/-- The interval of `m * 2 ^ q`. Below a power of two the neighbours stand twice as close. -/
def Interval.of (f : BinaryFormat) (m : Nat) (q : Int) : Interval :=
  let below := if m = Nat.pow 2 f.fractionBits ∧ f.minExponent < q then 1 else 2
  let (num, den) := BinaryFormat.scaleByTwo 1 1 (q - 2)
  { low := 4 * m - below, value := 4 * m, high := 4 * m + 2, num, den, closed := m % 2 = 0 }

/-- The multiple of `10 ^ exponent` nearest to the value, if one next to the value lies in the
interval. -/
def Interval.onGrid? (i : Interval) (tie : Tie) (exponent : Int) : Option Nat :=
  let a := if 0 ≤ exponent then i.num else i.num * Nat.pow 10 (-exponent).toNat
  let b := if 0 ≤ exponent then i.den * Nat.pow 10 exponent.toNat else i.den
  let down := i.value * a / b
  let remainder := i.value * a % b
  let reaches (x y : Nat) : Bool := if i.closed then x ≤ y else x < y
  let downHits := reaches (i.low * a) (down * b)
  let upHits := reaches ((down + 1) * b) (i.high * a)
  if upHits ∧ (¬downHits ∨ tie.goesUp down remainder b) then some (down + 1)
  else if downHits then some down
  else none

/-- Tries grids from coarse to fine. Seventeen digits always suffice. -/
def Interval.search (i : Interval) (tie : Tie) : Nat → Int → Decimal
  | 0, exponent => ⟨(i.onGrid? tie exponent).getD 0, exponent⟩
  | steps + 1, exponent =>
    match i.onGrid? tie exponent with
    | some digits => ⟨digits, exponent⟩
    | none => i.search tie steps (exponent - 1)

/-- The shortest decimal of `m * 2 ^ q` for positive `m`. -/
def shortest (f : BinaryFormat) (tie : Tie) (m : Nat) (q : Int) : Decimal :=
  let i := Interval.of f m q
  let position := pointPosition (i.value * i.num) i.den
  normalize 20 (i.search tie 17 (position - 1))

/-- The digits with a point after the first `position` of them, padded with zeros. The second
part is empty when all digits stand before the point. -/
def split (d : Decimal) : List Char × List Char :=
  let digits := digitChars d.digits
  let position : Int := digits.length + d.exponent
  if position ≤ 0 then (['0'], List.replicate (-position).toNat '0' ++ digits)
  else if 0 ≤ d.exponent then (digits ++ List.replicate d.exponent.toNat '0', [])
  else (digits.take position.toNat, digits.drop position.toNat)

/-- Positional text without an exponent, and without a point when the value is whole. -/
def plain (d : Decimal) : String :=
  let (whole, fraction) := d.split
  if fraction.isEmpty then String.ofList whole
  else String.ofList (whole ++ '.' :: fraction)

/-- Positional text with at least one digit after the point. -/
def pointed (d : Decimal) : String :=
  let (whole, fraction) := d.split
  String.ofList (whole ++ '.' :: (if fraction.isEmpty then ['0'] else fraction))

/-- One digit, the others after a point, and the power of ten. A power that is not negative stands
after `plus`. -/
def scientific (plus : String) (d : Decimal) : String :=
  let digits := digitChars d.digits
  let power : Int := digits.length + d.exponent - 1
  let mantissa := digits.take 1 ++ (if digits.length ≤ 1 then [] else '.' :: digits.drop 1)
  String.ofList mantissa ++ "e" ++ (if 0 ≤ power then plus else "") ++ toString power

/-- Positional text for values below `1e16` whose point stands at `least` or further right,
scientific text for the others. -/
def mixed (least : Int) (plus : String) (d : Decimal) : String :=
  let position : Int := (digitChars d.digits).length + d.exponent
  if d.digits = 0 ∨ (least ≤ position ∧ position ≤ 16) then d.pointed else d.scientific plus

end Decimal

structure NumberStyle where
  tie : Tie
  write : Decimal → String

namespace NumberStyle

/-- Positional text for values from `1e-4` up to `1e16`, scientific text for the others. It always
shows that the number is no integer. -/
def literal : NumberStyle := ⟨.up, Decimal.mixed (-3) ""⟩

def plain : NumberStyle := ⟨.up, Decimal.plain⟩

/-- Positional text for values from `1e-5` up to `1e16`, scientific text with a signed power for
the others. -/
def message : NumberStyle := ⟨.even, Decimal.mixed (-4) "+"⟩

end NumberStyle

namespace BinaryFormat

/-- The text of a word. Infinities carry their sign. -/
def text (f : BinaryFormat) (style : NumberStyle) (word : Nat) : String :=
  match f.read word with
  | .nan => "NaN"
  | .infinite negative => if negative then "-inf" else "inf"
  | .finite negative significand exponent =>
    let decimal :=
      if significand = 0 then ⟨0, 0⟩ else Decimal.shortest f style.tie significand exponent
    (if negative then "-" else "") ++ style.write decimal

end BinaryFormat

namespace Binary64

def literal (x : Binary64) : String := BinaryFormat.double.text .literal x.bits.toNat

def singleLiteral (x : Binary64) : String := BinaryFormat.single.text .literal x.toSingle

def plain (x : Binary64) : String := BinaryFormat.double.text .plain x.bits.toNat

end Binary64

end StreamSynth
