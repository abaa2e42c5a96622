import StreamSynth.LoweringError
import StreamSynth.Number.Int64

/-!
# Extents and indices

A stencil has four dimensions, of which unused ones have extent one. Elements are stored in a row
in which the first dimension runs fastest. The number of elements and the place of each are sizes
of 64 bits, so that either may overflow.
-/

namespace StreamSynth

structure Index where
  i0 : Nat
  i1 : Nat
  i2 : Nat
  i3 : Nat
  deriving DecidableEq

def Index.toList (i : Index) : List Nat := [i.i0, i.i1, i.i2, i.i3]

structure Extents where
  e0 : Nat
  e1 : Nat
  e2 : Nat
  e3 : Nat
  positive : 0 < e0 ∧ 0 < e1 ∧ 0 < e2 ∧ 0 < e3
  deriving DecidableEq

namespace Extents

def toList (e : Extents) : List Nat := [e.e0, e.e1, e.e2, e.e3]

theorem getD_one_pos {dims : List Nat} (noZero : 0 ∉ dims) (k : Nat) : 0 < dims.getD k 1 := by
  rw [List.getD_eq_getElem?_getD]
  cases found : dims[k]? with
  | none => exact Nat.one_pos
  | some dim => exact Nat.pos_of_ne_zero fun isZero => noZero (isZero ▸ List.mem_of_getElem? found)

/-- The extents of one to four dimensions, each at least one. -/
def ofList (dims : List Nat) : Except LoweringError Extents :=
  if dims.isEmpty ∨ 4 < dims.length then
    .error (.invalidExtents dims "expected 1 to 4 dimensions")
  else if noZero : 0 ∈ dims then
    .error (.invalidExtents dims "every extent must be at least 1")
  else
    .ok ⟨dims.getD 0 1, dims.getD 1 1, dims.getD 2 1, dims.getD 3 1,
      getD_one_pos noZero 0, getD_one_pos noZero 1, getD_one_pos noZero 2, getD_one_pos noZero 3⟩

def count? (e : Extents) : Option Nat :=
  e.toList.foldlM (fun product extent => size? (product * extent)) 1

def contains (e : Extents) (i : Index) : Bool :=
  i.i0 < e.e0 && i.i1 < e.e1 && i.i2 < e.e2 && i.i3 < e.e3

/-- The place of an index in the row of elements, computed from left to right. -/
def place? (e : Extents) (i : Index) : Option Nat := do
  let row ← size? (i.i1 * e.e0)
  let inPlane ← size? (i.i0 + row)
  let rows ← size? (i.i2 * e.e0)
  let plane ← size? (rows * e.e1)
  let inVolume ← size? (inPlane + plane)
  let rows ← size? (i.i3 * e.e0)
  let planes ← size? (rows * e.e1)
  let volume ← size? (planes * e.e2)
  size? (inVolume + volume)

def linear (e : Extents) (i : Index) : Except Stop Nat :=
  if e.contains i then orOverflow (e.place? i)
  else .error (.refused (.indexOutOfBounds i.toList e.toList))

def indices (e : Extents) : List Index :=
  (List.range e.e3).flatMap fun i3 =>
    (List.range e.e2).flatMap fun i2 =>
      (List.range e.e1).flatMap fun i1 =>
        (List.range e.e0).map fun i0 => ⟨i0, i1, i2, i3⟩

end Extents

end StreamSynth
