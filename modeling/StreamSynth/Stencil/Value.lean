import StreamSynth.Number.Binary
import StreamSynth.Number.Int64
import StreamSynth.Stencil.BitStore
import StreamSynth.Stencil.Extents
import StreamSynth.Text.Join

/-!
# Stencil values

Values of the three stencil layouts: one element to a slot, all elements packed into one row of
bits, and packed elements on a stream with a flag for the last transfer. Elements are kept as bit
patterns, so packing never changes a value.
-/

namespace StreamSynth

inductive Element where
  | uint8
  | uint16
  | uint32
  | uint64
  | int8
  | int16
  | int32
  | int64
  | float32
  | float64
  deriving DecidableEq

namespace Element

def bits : Element → Nat
  | uint8 | int8 => 8
  | uint16 | int16 => 16
  | uint32 | int32 | float32 => 32
  | uint64 | int64 | float64 => 64

abbrev Pattern (e : Element) := BitVec e.bits

/-- Whether two patterns are equal as numbers: patterns of floating point follow its rules, all
others are equal only to themselves. -/
def same (e : Element) (x y : e.Pattern) : Bool :=
  match e with
  | float32 => BinaryFormat.single.sameNumber x.toNat y.toNat
  | float64 => BinaryFormat.double.sameNumber x.toNat y.toNat
  | _ => x = y

def toWord (e : Element) (x : e.Pattern) : Word := x.setWidth 64

def ofWord (e : Element) (w : Word) : e.Pattern := w.setWidth e.bits

end Element

namespace Extents

/-- Whether memory can be reserved for all elements: the number of its bytes has to be a signed
word. -/
def reservable (extents : Extents) (e : Element) : Bool :=
  extents.count?.any fun count => (int64? (count * (e.bits / 8) : Nat)).isSome

def width? (extents : Extents) (e : Element) : Option Nat := do
  let count ← extents.count?
  size? (e.bits * count)

end Extents

/-- A stencil with one element to a slot, in the order of storage. -/
structure Stencil (e : Element) where
  extents : Extents
  values : Array e.Pattern
  size_eq : extents.count? = some values.size

namespace Stencil

variable {e : Element}

def filled (extents : Extents) (value : e.Pattern) : Except Stop (Stencil e) :=
  match counted : extents.count? with
  | some count =>
    if extents.reservable e then .ok ⟨extents, Array.replicate count value, by simpa using counted⟩
    else .error .overflow
  | none => .error .overflow

def ofValues (extents : Extents) (values : List e.Pattern) : Except Stop (Stencil e) :=
  match counted : extents.count? with
  | some count =>
    if sameNumber : values.length = count then
      .ok ⟨extents, values.toArray, by simpa [sameNumber] using counted⟩
    else
      .error (.refused (.invalidExtents extents.toList
        (toString values.length ++ " values supplied for " ++ toString count ++ " elements")))
  | none => .error .overflow

/-- The stencil with another element at a place of the row. -/
def write (s : Stencil e) (place : Nat) (value : e.Pattern) : Stencil e :=
  ⟨s.extents, s.values.setIfInBounds place value, by simpa using s.size_eq⟩

def get (s : Stencil e) (i : Index) : Except Stop e.Pattern := do
  let place ← s.extents.linear i
  return s.values.getD place 0

def set (s : Stencil e) (i : Index) (value : e.Pattern) : Except Stop (Stencil e) := do
  let place ← s.extents.linear i
  return s.write place value

/-- Equality as numbers. -/
def same (s t : Stencil e) : Bool :=
  s.extents = t.extents && (s.values.zip t.values).all fun (x, y) => e.same x y

end Stencil

/-- A stencil whose elements stand in one row of bits. -/
structure PackedStencil (e : Element) where
  extents : Extents
  bits : BitStore
  width_eq : extents.width? e = some bits.length
  deriving DecidableEq

namespace PackedStencil

variable {e : Element}

def zeroed (extents : Extents) : Except Stop (PackedStencil e) :=
  match fits : extents.width? e with
  | some width => .ok ⟨extents, BitStore.zeros width, fits⟩
  | none => .error .overflow

/-- Takes over a row of bits that was declared with elements of `wordBits` bits. Its width must be
that of all elements; widths are reported as numbers of 32 bits. -/
def ofBits (extents : Extents) (wordBits : Nat) (bits : BitStore) :
    Except Stop (PackedStencil e) :=
  if wordBits ≠ e.bits then .error (.refused (.wordWidth e.bits wordBits))
  else
    match fits : extents.width? e with
    | some width =>
      if sameWidth : bits.length = width then .ok ⟨extents, bits, by rw [fits, sameWidth]⟩
      else .error (.refused (.wordWidth (width % UInt32.size) (bits.length % UInt32.size)))
    | none => .error .overflow

def bitOffset (p : PackedStencil e) (i : Index) : Except Stop Nat := do
  let place ← p.extents.linear i
  orOverflow (size? (place * e.bits))

def readAt (p : PackedStencil e) (lo : Nat) : e.Pattern := e.ofWord (p.bits.read lo e.bits)

def writeAt (p : PackedStencil e) (lo : Nat) (value : e.Pattern) : PackedStencil e :=
  ⟨p.extents, p.bits.write lo e.bits (e.toWord value), by simpa using p.width_eq⟩

def get (p : PackedStencil e) (i : Index) : Except Stop e.Pattern := do
  let lo ← p.bitOffset i
  return p.readAt lo

def set (p : PackedStencil e) (i : Index) (value : e.Pattern) :
    Except Stop (PackedStencil e) := do
  let lo ← p.bitOffset i
  return p.writeAt lo value

def bytes (p : PackedStencil e) : List UInt8 := p.bits.bytes

/-- Writes values next to each other, from the element at `place` on. -/
def writeAll (p : PackedStencil e) (place : Nat) : List e.Pattern → PackedStencil e
  | [] => p
  | value :: rest => (p.writeAt (place * e.bits) value).writeAll (place + 1) rest

end PackedStencil

def Stencil.pack {e : Element} (s : Stencil e) : Except Stop (PackedStencil e) := do
  let p ← PackedStencil.zeroed s.extents
  return p.writeAll 0 s.values.toList

end StreamSynth
