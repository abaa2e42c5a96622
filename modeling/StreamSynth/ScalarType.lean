/-!
# Scalar types

An element type is a kind of number and a width in bits. The one-bit unsigned type is the type
of truth values, and handles are opaque addresses.
-/

namespace StreamSynth

inductive ScalarKind where
  | int
  | uint
  | float
  | handle
  deriving DecidableEq

structure ScalarType where
  kind : ScalarKind
  bits : UInt8
  deriving DecidableEq

namespace ScalarType

def int (bits : UInt8) : ScalarType := ⟨.int, bits⟩

def uint (bits : UInt8) : ScalarType := ⟨.uint, bits⟩

def float (bits : UInt8) : ScalarType := ⟨.float, bits⟩

def bool : ScalarType := uint 1

def handle : ScalarType := ⟨.handle, 64⟩

/-- The type of a name or constant that states none. -/
def default : ScalarType := int 32

def isFloat (t : ScalarType) : Bool := t.kind = .float

def isHandle (t : ScalarType) : Bool := t.kind = .handle

/-- The words that name a type in source text. -/
def keywords : List (String × ScalarType) :=
  [("bool", bool), ("uint1", bool),
   ("int8", int 8), ("int16", int 16), ("int32", int 32), ("int64", int 64),
   ("uint8", uint 8), ("uint16", uint 16), ("uint32", uint 32), ("uint64", uint 64),
   ("float16", float 16), ("float32", float 32), ("float", float 32),
   ("float64", float 64), ("double", float 64),
   ("handle", handle)]

def ofKeyword? (word : String) : Option ScalarType := keywords.lookup word

def display (t : ScalarType) : String :=
  match t.kind with
  | .int => "int" ++ toString t.bits.toNat
  | .uint => if t.bits = 1 then "bool" else "uint" ++ toString t.bits.toNat
  | .float => "float" ++ toString t.bits.toNat
  | .handle => "handle"

end ScalarType

end StreamSynth
