import Mathlib.Algebra.Group.Nat.Defs
import StreamSynth.Proofs.Access

/-!
# Bytes of packed stencils

The bytes of a store are its bits taken eight at a time, so nothing shows of the words in which the
bits are kept. The bytes of a packed stencil are therefore those of its elements, one element after
the other in the order of storage and each of them with its lowest byte first.
-/

namespace StreamSynth

/-- In pieces of one length laid end to end, a place is the piece it lies in and its place there. -/
theorem getElem?_flatMap_of_length {α β : Type} {f : α → List β} {size : Nat} (positive : 0 < size)
    (length_eq : ∀ a, (f a).length = size) (l : List α) (j : Nat) :
    (l.flatMap f)[j]? = l[j / size]?.bind fun a => (f a)[j % size]? := by
  induction l generalizing j with
  | nil => simp
  | cons a l inductionHypothesis =>
    rw [List.flatMap_cons, List.getElem?_append, length_eq]
    split
    · next inFirst =>
      rw [Nat.div_eq_of_lt inFirst, Nat.mod_eq_of_lt inFirst]
      rfl
    · next behind =>
      have inRest : size ≤ j := Nat.le_of_not_lt behind
      rw [inductionHypothesis, Nat.div_eq_sub_div positive inRest, Nat.mod_eq_sub_mod inRest,
        List.getElem?_cons_succ]

theorem testBit_mod_byte (n : Nat) {k : Nat} (below : k < 8) :
    (n % 256).testBit k = n.testBit k := by
  have masked := Nat.testBit_mod_two_pow n 8 k
  rwa [decide_eq_true below, Bool.true_and] at masked

theorem bytes_ext {bs cs : List UInt8} (length_eq : bs.length = cs.length)
    (bits_eq : ∀ j < bs.length, ∀ k < 8,
      (bs.getD j 0).toNat.testBit k = (cs.getD j 0).toNat.testBit k) : bs = cs := by
  apply List.ext_getElem length_eq
  intro j inLeft inRight
  apply UInt8.toNat_inj.mp
  apply Nat.eq_of_testBit_eq
  intro k
  by_cases below : k < 8
  · simpa [inLeft, inRight] using bits_eq j inLeft k below
  · have wide : 2 ^ 8 ≤ 2 ^ k := Nat.pow_le_pow_right (by decide) (Nat.le_of_not_lt below)
    have noBit : ∀ b : UInt8, b.toNat.testBit k = false := by
      intro b
      exact Nat.testBit_lt_two_pow (Nat.lt_of_lt_of_le b.toNat_lt wide)
    rw [noBit, noBit]

namespace BitStore

variable {s : BitStore}

theorem length_wordBytes (w : Word) : (wordBytes w).length = 8 := by
  simp [wordBytes]

theorem WellFormed.length_bytes (wellFormed : s.WellFormed) :
    s.bytes.length = (s.length + 7) / 8 := by
  have all : (s.words.toList.flatMap wordBytes).length = 8 * s.words.size := by
    simp [List.length_flatMap, length_wordBytes, Nat.mul_comm]
  have size := wellFormed.size_words
  rw [bytes, List.length_take, all]
  omega

theorem testBit_bytes {j k : Nat} (inside : j < s.bytes.length) (below : k < 8) :
    (s.bytes.getD j 0).toNat.testBit k = s.bit (8 * j + k) := by
  have word_eq : (8 * j + k) / 64 = j / 8 := by omega
  have bit_eq : (8 * j + k) % 64 = 8 * (j % 8) + k := by omega
  have taken : j < (s.length + 7) / 8 := by
    rw [bytes, List.length_take] at inside
    omega
  have byte_lt : j % 8 < 8 := Nat.mod_lt _ (by decide)
  rw [bytes, List.getD_eq_getElem?_getD, List.getElem?_take_of_lt taken,
    getElem?_flatMap_of_length (by decide) length_wordBytes, bit, word, word_eq, bit_eq,
    Array.getElem?_toList, Array.getD_eq_getD_getElem?]
  cases s.words[j / 8]? with
  | none => simp
  | some w => simp [wordBytes, byte_lt, testBit_mod_byte _ below, BitVec.testBit_toNat]

end BitStore

namespace Element

variable (e : Element)

/-- The digits of a pattern to base 256, the lowest first, as many as its width holds. -/
def littleEndian (x : e.Pattern) : List UInt8 :=
  (List.range (e.bits / 8)).map fun k => UInt8.ofNat (x.toNat / 256 ^ k)

theorem eight_mul_bits_div : 8 * (e.bits / 8) = e.bits := by
  cases e <;> decide

theorem length_littleEndian (x : e.Pattern) : (e.littleEndian x).length = e.bits / 8 := by
  simp [littleEndian]

theorem testBit_littleEndian (x : e.Pattern) {j k : Nat} (inside : j < e.bits / 8)
    (below : k < 8) :
    ((e.littleEndian x).getD j 0).toNat.testBit k = x.getLsbD (8 * j + k) := by
  have power : 256 ^ j = 2 ^ (8 * j) := by rw [Nat.pow_mul]
  simp [littleEndian, inside, power, testBit_mod_byte _ below, Nat.testBit_div_two_pow,
    BitVec.testBit_toNat, Nat.add_comm]

end Element

/-- The bytes of a packed form are those of the elements in a row. -/
theorem PackedStencil.Represents.bytes_eq {e : Element} {p : PackedStencil e} {s : Stencil e}
    (represents : p.Represents s) : p.bytes = s.values.toList.flatMap e.littleEndian := by
  have eightfold : 8 * (e.bits / 8) = e.bits := e.eight_mul_bits_div
  have positive : 0 < e.bits / 8 := e.bytes_pos
  have length_bytes : p.bytes.length = e.bits / 8 * s.values.size := by
    have length_eq : p.bits.length = 8 * (e.bits / 8 * s.values.size) := by
      rw [p.length_bits, represents.extents_eq, ← s.size_values, ← Nat.mul_assoc, eightfold]
    rw [PackedStencil.bytes, represents.wellFormed.length_bytes]
    omega
  apply bytes_ext
  · simp [length_bytes, List.length_flatMap, e.length_littleEndian, Nat.mul_comm]
  · intro j inside k below
    have element_eq : (8 * j + k) / e.bits = j / (e.bits / 8) := by
      rw [← eightfold, ← Nat.div_div_eq_div_mul, Nat.mul_add_div (by decide),
        Nat.div_eq_of_lt below, Nat.add_zero, eightfold]
    have offset_eq : (8 * j + k) % e.bits = 8 * (j % (e.bits / 8)) + k := by
      rw [← eightfold, Nat.mod_mul, Nat.mul_add_mod, Nat.mod_eq_of_lt below,
        Nat.mul_add_div (by decide), Nat.div_eq_of_lt below, Nat.add_zero, eightfold,
        Nat.add_comm]
    rw [PackedStencil.bytes, BitStore.testBit_bytes inside below, represents.bit_eq, element_eq,
      offset_eq, List.getD_eq_getElem?_getD,
      getElem?_flatMap_of_length positive e.length_littleEndian, Array.getElem?_toList,
      Array.getD_eq_getD_getElem?]
    cases s.values[j / (e.bits / 8)]? with
    | none => simp
    | some value =>
      have inElement : j % (e.bits / 8) < e.bits / 8 := Nat.mod_lt _ positive
      simpa [List.getD_eq_getElem?_getD] using (e.testBit_littleEndian value inElement below).symm

/-- Read in the order of storage and written out byte by byte, the elements of a stencil are the
bytes of its packed form. There is one unless the stencil has 2^61 bytes or more, whose bits no size
counts. A store that was filled by writes has as many bytes as its bits need. They hold its bits in
order, and behind the last one zeros. -/
theorem packed_bytes_layout (e : Element) :
    (∀ s : Stencil e,
        if e.bits * s.values.size < 2 ^ 64 then
          ∃ p, s.pack = .ok p ∧
            (s.extents.indices.mapM s.get).map (·.flatMap e.littleEndian) = .ok p.bytes
        else s.pack = .error .overflow) ∧
      ∀ s : BitStore, s.Built →
        s.bytes.length = (s.length + 7) / 8 ∧
          ∀ j (inside : j < s.bytes.length), ∀ k < 8,
            s.bytes[j].toNat.testBit k = s.bit (8 * j + k) ∧
              (s.length ≤ 8 * j + k → s.bytes[j].toNat.testBit k = false) := by
  constructor
  · intro s
    split
    · next fits =>
      obtain ⟨p, packed⟩ := PackedStencil.exists_pack fits
      refine ⟨p, packed, ?_⟩
      rw [s.mapM_get_indices, (PackedStencil.pack_eq_ok_iff.mp packed).bytes_eq]
      rfl
    · next tooLarge => exact PackedStencil.pack_of_overflow tooLarge
  · intro s built
    refine ⟨built.wellFormed.length_bytes, ?_⟩
    intro j inside k below
    have bit_eq : s.bytes[j].toNat.testBit k = s.bit (8 * j + k) := by
      simpa [inside] using BitStore.testBit_bytes inside below
    refine ⟨bit_eq, ?_⟩
    intro past
    rw [bit_eq, built.wellFormed.padding _ past]

/-- Seventy bits, the last ten of them set by a write across two words. -/
theorem packed_bytes_layout_partial_byte :
    ∃ s : BitStore, s.Built ∧ s.bytes = [0, 0, 0, 0, 0, 0, 0, 0xf0, 0x3f] ∧
      s.bytes.length = (s.length + 7) / 8 ∧
      ∀ j (inside : j < s.bytes.length), ∀ k < 8,
        s.bytes[j].toNat.testBit k = s.bit (8 * j + k) ∧
          (s.length ≤ 8 * j + k → s.bytes[j].toNat.testBit k = false) := by
  have written : (BitStore.zeros 70).set? 60 10 0xfff =
      some ((BitStore.zeros 70).write 60 10 0xfff) := by
    rw [BitStore.set?, if_pos (by decide)]
  have built : ((BitStore.zeros 70).write 60 10 0xfff).Built := .set (.zeros 70) written
  exact ⟨_, built, by decide, (packed_bytes_layout .uint8).2 _ built⟩

end StreamSynth
