import StreamSynth.Stencil.BitStore

/-!
# Reading and writing ranges of bits

A store is seen as a row of single bits. Reading a range gives the bits of the range and writing
one changes exactly these bits, also where the range lies across two words. Stores that are
well-formed, that is without spare words and with zeros past their end, are equal when they have
the same length and the same bits. All stores that are filled by writing ranges are well-formed.
-/

namespace StreamSynth.BitStore

theorem mask_eq_ushiftRight :
    ∀ width < 64, mask width = BitVec.allOnes 64 >>> (64 - width) := by
  decide

theorem getLsbD_mask (width k : Nat) :
    (mask width).getLsbD k = decide (k < width ∧ k < 64) := by
  by_cases full : 64 ≤ width
  · have below_iff : (k < width ∧ k < 64) ↔ k < 64 := by omega
    rw [mask, if_pos full, BitVec.getLsbD_allOnes]
    simp only [below_iff]
  · have moved : (k < width ∧ k < 64) ↔ 64 - width + k < 64 := by omega
    rw [mask_eq_ushiftRight width (by omega), BitVec.getLsbD_ushiftRight, BitVec.getLsbD_allOnes]
    simp only [moved]

theorem inRange_eq_true_iff {s : BitStore} {lo width : Nat} :
    s.inRange lo width = true ↔
      width ≤ 64 ∧ lo + width ≤ s.length ∧ lo / 64 < s.words.size := by
  simp only [inRange, Bool.and_eq_true, decide_eq_true_eq, and_assoc]

/-- A store without spare words whose bits past the end are zero. -/
structure WellFormed (s : BitStore) : Prop where
  size_words : s.words.size = (s.length + 63) / 64
  padding : ∀ n, s.length ≤ n → s.bit n = false

section Words

variable (s : BitStore) (n : Nat) (change : Word → Word)

@[simp] theorem length_modifyWord : (s.modifyWord n change).length = s.length := rfl

@[simp] theorem size_words_modifyWord :
    (s.modifyWord n change).words.size = s.words.size := by
  simp [modifyWord]

theorem word_modifyWord (stored : n < s.words.size) (m : Nat) :
    (s.modifyWord n change).word m = if m = n then change (s.word m) else s.word m := by
  simp only [word, modifyWord, Array.getD_eq_getD_getElem?, Array.getElem?_modify]
  by_cases same : m = n
  · subst same
    simp [stored]
  · rw [if_neg same, if_neg fun equal => same equal.symm]

end Words

section Range

variable (s : BitStore) (lo width : Nat) (value : Word)

@[simp] theorem size_words_write : (s.write lo width value).words.size = s.words.size := by
  unfold write
  dsimp only
  split <;> simp

/-- Each bit of a range that is read is the bit of the store at its place. -/
theorem getLsbD_read (narrow : width ≤ 64) (k : Nat) :
    (s.read lo width).getLsbD k = (decide (k < width) && s.bit (lo + k)) := by
  by_cases inside : k < width
  · have below : k < 64 := by omega
    simp only [read, BitVec.getLsbD_and, getLsbD_mask, inside, below, and_self, decide_true,
      Bool.and_true, Bool.true_and, bit]
    by_cases sameWord : lo % 64 + k < 64
    · have word_eq : (lo + k) / 64 = lo / 64 := by omega
      have bit_eq : (lo + k) % 64 = lo % 64 + k := by omega
      have notShifted : k < 64 - lo % 64 := by omega
      rw [word_eq, bit_eq]
      split <;> simp [BitVec.getLsbD_shiftLeft, notShifted]
    · have word_eq : (lo + k) / 64 = lo / 64 + 1 := by omega
      have bit_eq : (lo + k) % 64 = k - (64 - lo % 64) := by omega
      have across : 64 < lo % 64 + width := by omega
      have shifted : ¬ k < 64 - lo % 64 := by omega
      have past : (s.word (lo / 64)).getLsbD (lo % 64 + k) = false :=
        BitVec.getLsbD_of_ge _ _ (by omega)
      rw [word_eq, bit_eq, if_pos across]
      simp only [BitVec.getLsbD_or, BitVec.getLsbD_ushiftRight, BitVec.getLsbD_shiftLeft, past,
        shifted, below, decide_true, decide_false, Bool.not_false, Bool.true_and, Bool.false_or]
  · simp [read, getLsbD_mask, inside]

variable {s lo width}

/-- The second word of a range that lies across two words is there. -/
theorem next_word_stored (wellFormed : s.WellFormed) (inside : s.inRange lo width = true)
    (across : 64 < lo % 64 + width) : lo / 64 + 1 < s.words.size := by
  have size := wellFormed.size_words
  obtain ⟨narrow, within, _⟩ := inRange_eq_true_iff.mp inside
  omega

/-- The words after a write: one or two of them are changed. -/
theorem word_write (wellFormed : s.WellFormed) (inside : s.inRange lo width = true) (m : Nat) :
    (s.write lo width value).word m =
      if m = lo / 64 then
        (s.word m &&& ~~~(mask width <<< (lo % 64))) ||| (value &&& mask width) <<< (lo % 64)
      else if m = lo / 64 + 1 ∧ 64 < lo % 64 + width then
        (s.word m &&& ~~~(mask (lo % 64 + width - 64))) |||
          (value &&& mask width) >>> (64 - lo % 64)
      else s.word m := by
  obtain ⟨_, _, stored⟩ := inRange_eq_true_iff.mp inside
  unfold write
  dsimp only
  split
  · next across =>
    have nextStored := next_word_stored wellFormed inside across
    rw [word_modifyWord _ _ _ (by simpa using nextStored), word_modifyWord _ _ _ stored]
    by_cases second : m = lo / 64 + 1
    · simp [second, across]
    · simp [second]
  · next one => simp [word_modifyWord _ _ _ stored, one]

/-- Writing a range changes the bits of the range and no others. -/
theorem bit_write (wellFormed : s.WellFormed) (inside : s.inRange lo width = true) (n : Nat) :
    (s.write lo width value).bit n =
      if lo ≤ n ∧ n < lo + width then value.getLsbD (n - lo) else s.bit n := by
  obtain ⟨narrow, _, _⟩ := inRange_eq_true_iff.mp inside
  have below : n % 64 < 64 := Nat.mod_lt _ (by decide)
  rw [bit, word_write value wellFormed inside]
  by_cases firstWord : n / 64 = lo / 64
  · rw [if_pos firstWord]
    have place_eq : n - lo = n % 64 - lo % 64 := by omega
    have inside_iff : (lo ≤ n ∧ n < lo + width) ↔
        (¬ n % 64 < lo % 64 ∧ n % 64 - lo % 64 < width) := by omega
    have shiftedBelow : n % 64 - lo % 64 < 64 := by omega
    simp only [BitVec.getLsbD_or, BitVec.getLsbD_and, BitVec.getLsbD_not,
      BitVec.getLsbD_shiftLeft, getLsbD_mask, shiftedBelow, below, inside_iff, place_eq, bit]
    by_cases before : n % 64 < lo % 64 <;> by_cases covered : n % 64 - lo % 64 < width <;>
      simp [before, covered]
  · rw [if_neg firstWord]
    by_cases secondWord : n / 64 = lo / 64 + 1 ∧ 64 < lo % 64 + width
    · rw [if_pos secondWord]
      have place_eq : n - lo = 64 - lo % 64 + n % 64 := by omega
      have inside_iff : (lo ≤ n ∧ n < lo + width) ↔ n % 64 < lo % 64 + width - 64 := by omega
      have masked_iff : (64 - lo % 64 + n % 64 < width ∧ 64 - lo % 64 + n % 64 < 64) ↔
          n % 64 < lo % 64 + width - 64 := by omega
      simp only [BitVec.getLsbD_or, BitVec.getLsbD_and, BitVec.getLsbD_not,
        BitVec.getLsbD_ushiftRight, getLsbD_mask, masked_iff, below, inside_iff, place_eq, bit]
      by_cases covered : n % 64 < lo % 64 + width - 64 <;> simp [covered]
    · rw [if_neg secondWord, if_neg (by omega)]
      rfl

end Range

theorem bit_zeros (length n : Nat) : (zeros length).bit n = false := by
  simp only [bit, word, zeros, Array.getD_eq_getD_getElem?, Array.getElem?_replicate]
  split <;> simp

theorem wellFormed_zeros (length : Nat) : (zeros length).WellFormed where
  size_words := by simp [zeros]
  padding n _ := bit_zeros length n

theorem WellFormed.write {s : BitStore} (wellFormed : s.WellFormed) {lo width : Nat}
    (inside : s.inRange lo width = true) (value : Word) :
    (s.write lo width value).WellFormed where
  size_words := by simpa using wellFormed.size_words
  padding n past := by
    obtain ⟨_, within, _⟩ := inRange_eq_true_iff.mp inside
    rw [length_write] at past
    rw [bit_write value wellFormed inside, if_neg (by omega)]
    exact wellFormed.padding n past

/-- Well-formed stores are determined by their length and bits. -/
theorem WellFormed.ext {s t : BitStore} (left : s.WellFormed) (right : t.WellFormed)
    (length_eq : s.length = t.length) (bits_eq : ∀ n < s.length, s.bit n = t.bit n) : s = t := by
  have allBits (n : Nat) : s.bit n = t.bit n := by
    by_cases inside : n < s.length
    · exact bits_eq n inside
    · rw [left.padding n (by omega), right.padding n (by omega)]
  have size_eq : s.words.size = t.words.size := by
    rw [left.size_words, right.size_words, length_eq]
  have words_eq : s.words = t.words := by
    apply Array.ext size_eq
    intro m inLeft inRight
    apply BitVec.eq_of_getLsbD_eq
    intro k below
    have atPlace := allBits (64 * m + k)
    have word_eq : (64 * m + k) / 64 = m := by omega
    have bit_eq : (64 * m + k) % 64 = k := by omega
    simpa only [bit, word, word_eq, bit_eq, Array.getD_eq_getD_getElem?,
      Array.getElem?_eq_getElem inLeft, Array.getElem?_eq_getElem inRight,
      Option.getD_some] using atPlace
  cases s
  cases t
  simp_all

inductive Built : BitStore → Prop
  | zeros (length : Nat) : Built (zeros length)
  | set {s t : BitStore} {lo width : Nat} {value : Word} :
      Built s → s.set? lo width value = some t → Built t

theorem Built.wellFormed {s : BitStore} (built : s.Built) : s.WellFormed := by
  induction built with
  | zeros length => exact wellFormed_zeros length
  | @set s t lo width value _ written wellFormed =>
    rw [set?] at written
    split at written
    · next inside =>
      obtain rfl := Option.some.inj written
      exact wellFormed.write inside value
    · simp at written

structure RangeWrite where
  lo : Nat
  width : Nat
  value : Word

def FitsIn (length lo width : Nat) : Prop := 1 ≤ width ∧ width ≤ 64 ∧ lo + width ≤ length

instance (length lo width : Nat) : Decidable (FitsIn length lo width) :=
  inferInstanceAs (Decidable (_ ∧ _ ∧ _))

theorem WellFormed.inRange_of_fits {s : BitStore} (wellFormed : s.WellFormed) {lo width : Nat}
    (fits : FitsIn s.length lo width) : s.inRange lo width = true := by
  obtain ⟨nonempty, narrow, within⟩ := fits
  have size := wellFormed.size_words
  exact inRange_eq_true_iff.mpr ⟨narrow, within, by omega⟩

/-- Writes ranges one after the other; none as soon as one of them is not in the store. -/
def writeRanges (s : BitStore) (writes : List RangeWrite) : Option BitStore :=
  writes.foldlM (fun s w => s.set? w.lo w.width w.value) s

theorem WellFormed.exists_writeRanges {s : BitStore} (wellFormed : s.WellFormed)
    (writes : List RangeWrite) (fit : ∀ w ∈ writes, FitsIn s.length w.lo w.width) :
    ∃ t, s.writeRanges writes = some t ∧ t.WellFormed ∧ t.length = s.length := by
  induction writes generalizing s with
  | nil => exact ⟨s, rfl, wellFormed, rfl⟩
  | cons w rest inductionHypothesis =>
    obtain ⟨firstFits, restFit⟩ := List.forall_mem_cons.mp fit
    have inside := wellFormed.inRange_of_fits firstFits
    obtain ⟨t, written, tWellFormed, length_eq⟩ :=
      inductionHypothesis (wellFormed.write inside w.value) (by rwa [length_write])
    refine ⟨t, ?_, tWellFormed, by rw [length_eq, length_write]⟩
    rw [writeRanges, List.foldlM_cons, set?, if_pos inside]
    exact written

/-- After any writes of ranges into an empty store, the store has the words that its length needs
and zeros past its end. A range that is read is the number with the bits of the range and no
others, and a range that is written takes over the lowest bits of the word and leaves all bits
around it as they were. -/
theorem bit_ranges_exact (length : Nat) (writes : List RangeWrite)
    (fit : ∀ w ∈ writes, FitsIn length w.lo w.width) :
    ∃ s, (zeros length).writeRanges writes = some s ∧ s.length = length ∧
      s.words.size = (length + 63) / 64 ∧ (∀ n, length ≤ n → s.bit n = false) ∧
      ∀ lo width, FitsIn length lo width →
        (∃ r, s.get? lo width = some r ∧
          ∀ k, r.toNat.testBit k = (decide (k < width) && s.bit (lo + k))) ∧
        ∀ value, ∃ t, s.set? lo width value = some t ∧
          ∀ j, t.bit j = if lo ≤ j ∧ j < lo + width then value.getLsbD (j - lo) else s.bit j := by
  obtain ⟨s, written, wellFormed, length_eq⟩ :=
    (wellFormed_zeros length).exists_writeRanges writes fit
  change s.length = length at length_eq
  subst length_eq
  refine ⟨s, written, rfl, wellFormed.size_words, wellFormed.padding, ?_⟩
  intro lo width fits
  have inside := wellFormed.inRange_of_fits fits
  constructor
  · refine ⟨s.read lo width, by rw [get?, if_pos inside], ?_⟩
    intro k
    rw [BitVec.testBit_toNat, getLsbD_read s lo width fits.2.1]
  · intro value
    exact ⟨s.write lo width value, by rw [set?, if_pos inside], bit_write value wellFormed inside⟩

/-- Two writes across words, the first one of a word with bits above the range. -/
theorem bit_ranges_exact_across_words :
    ∃ s, (zeros 130).writeRanges [⟨60, 10, 0xfff⟩, ⟨66, 64, BitVec.allOnes 64⟩] = some s ∧
      s.words.size = 3 ∧ (∀ n, 130 ≤ n → s.bit n = false) ∧
      ∃ r, s.get? 59 12 = some r ∧
        ∀ k, r.toNat.testBit k = (decide (k < 12) && s.bit (59 + k)) := by
  obtain ⟨s, written, _, size, padding, ranges⟩ :=
    bit_ranges_exact 130 [⟨60, 10, 0xfff⟩, ⟨66, 64, BitVec.allOnes 64⟩] (by decide)
  exact ⟨s, written, size, padding, (ranges 59 12 (by decide)).1⟩

end StreamSynth.BitStore
