import StreamSynth.Number.Int64
import StreamSynth.Stencil.Value

/-!
# Host buffers

A view of host memory with an extent and a stride for each dimension, both in elements. A
dimension that is not used may report an extent of zero. Extents, strides and offsets are signed
words of 64 bits.
-/

namespace StreamSynth

structure PerDimension where
  d0 : Int64
  d1 : Int64
  d2 : Int64
  d3 : Int64
  deriving DecidableEq

def PerDimension.toList (d : PerDimension) : List Int64 := [d.d0, d.d1, d.d2, d.d3]

structure HostBuffer (e : Element) where
  data : Array e.Pattern
  extent : PerDimension
  stride : PerDimension

namespace HostBuffer

variable {e : Element}

/-- The offset after one more dimension, if the product and the sum are words. -/
def advance (offset : Int64) (step : Nat × Int64) : Option Int64 := do
  let distance ← int64? ((Int64.ofNat step.1).toInt * step.2.toInt)
  int64? (offset.toInt + distance.toInt)

/-- The place of an index in the memory of the buffer, if all numbers on the way to it are words. -/
def offset? (b : HostBuffer e) (i : Index) : Option Int64 :=
  (i.toList.zip b.stride.toList).foldlM advance 0

/-- Compares extents dimension by dimension, from number `dimension` on. A wanted extent is
compared as the signed word that its lowest 64 bits stand for. -/
def checkExtents (dimension : Nat) : List Nat → List Int64 → Except LoweringError Unit
  | want :: wants, found :: others =>
    if Int64.ofNat want = found ∨ (0 < dimension ∧ want = 1 ∧ found = 0) then
      checkExtents (dimension + 1) wants others
    else .error (.extentMismatch dimension want found.toInt)
  | _, _ => .ok ()

def outsideError (i : Index) (offset : Int) : LoweringError :=
  .malformed "buffer_to_stencil"
    ("element " ++ bracketed i.toList ++ " at offset " ++ toString offset ++
      " lies outside the host buffer")

/-- The element at an index, if it lies in the memory of the buffer. -/
def element (b : HostBuffer e) (i : Index) : Except Stop e.Pattern :=
  match b.offset? i with
  | none => .error .overflow
  | some offset =>
    match (if 0 ≤ offset.toInt then b.data[offset.toInt.toNat]? else none) with
    | some value => .ok value
    | none => .error (.refused (outsideError i offset.toInt))

/-- Copies a buffer into a stencil of the given extents. Memory for all elements is reserved before
the first of them is copied. -/
def toStencil (b : HostBuffer e) (extents : Extents) : Except Stop (Stencil e) := do
  (checkExtents 0 extents.toList b.extent.toList).mapError .refused
  if !extents.reservable e then throw .overflow
  let values ← extents.indices.mapM b.element
  Stencil.ofValues extents values

end HostBuffer

end StreamSynth
