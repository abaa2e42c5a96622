/-!
# Bit stores

A row of bits of fixed length, kept in words of 64 bits. Bit zero is the lowest bit of the first
word. Ranges of up to 64 bits are read and written at any place, also across two words.
-/

namespace StreamSynth

abbrev Word := BitVec 64

structure BitStore where
  length : Nat
  words : Array Word
  deriving DecidableEq

namespace BitStore

def mask (width : Nat) : Word :=
  if 64 ≤ width then BitVec.allOnes 64 else (1#64 <<< width) - 1#64

def zeros (length : Nat) : BitStore := ⟨length, Array.replicate ((length + 63) / 64) 0⟩

/-- The word of a number; a word that is not there is zero. -/
def word (s : BitStore) (n : Nat) : Word := s.words.getD n 0

def bit (s : BitStore) (n : Nat) : Bool := (s.word (n / 64)).getLsbD (n % 64)

/-- Whether `width` bits from place `lo` on can be read and written. A range without bits still
has to start in a word of the store. -/
def inRange (s : BitStore) (lo width : Nat) : Bool :=
  width ≤ 64 && lo + width ≤ s.length && lo / 64 < s.words.size

def read (s : BitStore) (lo width : Nat) : Word :=
  let offset := lo % 64
  let low := s.word (lo / 64) >>> offset
  let both := if 64 < offset + width then low ||| s.word (lo / 64 + 1) <<< (64 - offset) else low
  both &&& mask width

def modifyWord (s : BitStore) (n : Nat) (change : Word → Word) : BitStore :=
  { s with words := s.words.modify n change }

/-- Overwrites the bits of a range by the lowest bits of a word. -/
def write (s : BitStore) (lo width : Nat) (value : Word) : BitStore :=
  let value := value &&& mask width
  let offset := lo % 64
  let low := s.modifyWord (lo / 64) fun w =>
    (w &&& ~~~(mask width <<< offset)) ||| value <<< offset
  if 64 < offset + width then
    low.modifyWord (lo / 64 + 1) fun w =>
      (w &&& ~~~(mask (offset + width - 64))) ||| value >>> (64 - offset)
  else low

@[simp] theorem length_write (s : BitStore) (lo width : Nat) (value : Word) :
    (s.write lo width value).length = s.length := by
  unfold write
  dsimp only
  split <;> rfl

def get? (s : BitStore) (lo width : Nat) : Option Word :=
  if s.inRange lo width then some (s.read lo width) else none

def set? (s : BitStore) (lo width : Nat) (value : Word) : Option BitStore :=
  if s.inRange lo width then some (s.write lo width value) else none

def wordBytes (w : Word) : List UInt8 :=
  (List.range 8).map fun k => UInt8.ofBitVec ((w >>> (8 * k)).setWidth 8)

/-- The bytes of the store, lowest first; the last one is filled up with zeros. -/
def bytes (s : BitStore) : List UInt8 :=
  (s.words.toList.flatMap wordBytes).take ((s.length + 7) / 8)

def hexWord (w : Word) : String :=
  String.ofList ((List.range 16).map fun k => Nat.digitChar (w.toNat / Nat.pow 16 (15 - k) % 16))

/-- The length and all words, highest first. -/
def display (s : BitStore) : String :=
  "BitVec[" ++ toString s.length ++ "]0x" ++ String.join (s.words.toList.reverse.map hexWord)

end BitStore

end StreamSynth
