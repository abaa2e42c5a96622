import Mathlib.Algebra.Group.Nat.Defs
import StreamSynth.Proofs.BitRange
import StreamSynth.Proofs.StorageOrder
import StreamSynth.Stencil.Value

/-!
# Packing keeps every element

A packed stencil represents a stencil when its bits are the patterns of the elements in a row and
nothing else. Packing gives such a row whenever its width is a size of 64 bits, and there is only
one, so packing and unpacking undo each other. Writing one element keeps the representation, because
it changes the bits of that element only.
-/

namespace StreamSynth

namespace Element

variable (e : Element)

theorem bits_pos : 0 < e.bits := by
  cases e <;> decide

theorem bits_le_word : e.bits ≤ 64 := by
  cases e <;> decide

theorem bytes_pos : 0 < e.bits / 8 := by
  cases e <;> decide

theorem getLsbD_ofWord (w : Word) (k : Nat) :
    (e.ofWord w).getLsbD k = (decide (k < e.bits) && w.getLsbD k) := by
  rw [ofWord, BitVec.getLsbD_setWidth]

/-- A pattern fills its word up with zeros, whatever its sign. -/
theorem getLsbD_toWord (x : e.Pattern) (k : Nat) : (e.toWord x).getLsbD k = x.getLsbD k := by
  rw [toWord, BitVec.getLsbD_setWidth]
  by_cases below : k < 64
  · simp [below]
  · have narrow := e.bits_le_word
    simp [BitVec.getLsbD_of_ge x k (by omega)]

/-- A place in a row of elements is the element it lies in and its place there. -/
theorem div_eq_iff_mem_range (place n : Nat) :
    (place * e.bits ≤ n ∧ n < place * e.bits + e.bits) ↔ n / e.bits = place := by
  rw [Nat.div_eq_iff e.bits_pos]
  have positive := e.bits_pos
  omega

end Element

namespace BitStore

variable {e : Element} {s : BitStore}

theorem inRange_element (wellFormed : s.WellFormed) {place : Nat}
    (fits : (place + 1) * e.bits ≤ s.length) : s.inRange (place * e.bits) e.bits = true := by
  rw [Nat.succ_mul] at fits
  exact wellFormed.inRange_of_fits ⟨e.bits_pos, e.bits_le_word, fits⟩

/-- Writing an element changes the bits of this element only. -/
theorem bit_writeElement (wellFormed : s.WellFormed) {place : Nat}
    (fits : (place + 1) * e.bits ≤ s.length) (value : e.Pattern) (n : Nat) :
    (s.write (place * e.bits) e.bits (e.toWord value)).bit n =
      if n / e.bits = place then value.getLsbD (n % e.bits) else s.bit n := by
  rw [bit_write _ wellFormed (inRange_element wellFormed fits)]
  simp only [Element.div_eq_iff_mem_range, Element.getLsbD_toWord]
  split
  · next sameElement =>
    have offset_eq : n - place * e.bits = n % e.bits := by
      rw [← sameElement, Nat.mod_eq_sub_div_mul]
    rw [offset_eq]
  · rfl

end BitStore

/-- The width of a packed form is known exactly when it fits a size. -/
theorem Extents.width?_eq_size? (extents : Extents) (e : Element) :
    extents.width? e = size? (e.bits * extents.count) := by
  rw [width?, count?_eq_size?]
  by_cases fits : extents.count < 2 ^ 64
  · rw [size?_eq_some fits]
    rfl
  · have grows : extents.count ≤ e.bits * extents.count :=
      Nat.le_mul_of_pos_left _ e.bits_pos
    rw [size?_eq_none fits, size?_eq_none (by omega)]
    rfl

namespace Stencil

variable {e : Element}

theorem count_lt (s : Stencil e) : s.extents.count < 2 ^ 64 :=
  (Extents.count?_eq_some_iff.mp s.size_eq).1

theorem size_values (s : Stencil e) : s.values.size = s.extents.count :=
  (Extents.count?_eq_some_iff.mp s.size_eq).2.symm

theorem ext {s t : Stencil e} (extents_eq : s.extents = t.extents)
    (values_eq : s.values = t.values) : s = t := by
  cases s
  cases t
  simp_all

theorem exists_ofValues {extents : Extents} {values : List e.Pattern}
    (fits : extents.count < 2 ^ 64) (length_eq : values.length = extents.count) :
    ∃ s, ofValues extents values = .ok s ∧ s.extents = extents ∧ s.values.toList = values := by
  rw [ofValues]
  split
  · next count counted =>
    rw [dif_pos (length_eq.trans (Extents.count?_eq_some_iff.mp counted).2)]
    exact ⟨_, rfl, rfl, rfl⟩
  · next uncounted =>
    rw [Extents.count?_eq_some_iff.mpr ⟨fits, rfl⟩] at uncounted
    cases uncounted

end Stencil

namespace PackedStencil

variable {e : Element} {p q : PackedStencil e} {s : Stencil e}

section Sizes

variable (p)

theorem width_lt : e.bits * p.extents.count < 2 ^ 64 := by
  have fits := p.width_eq
  rw [Extents.width?_eq_size?, size?_eq_some_iff] at fits
  exact fits.1

theorem length_bits : p.bits.length = e.bits * p.extents.count := by
  have fits := p.width_eq
  rw [Extents.width?_eq_size?, size?_eq_some_iff] at fits
  exact fits.2.symm

theorem count_lt : p.extents.count < 2 ^ 64 :=
  Nat.lt_of_le_of_lt (Nat.le_mul_of_pos_left _ e.bits_pos) p.width_lt

theorem element_fits {place : Nat} (inside : place < p.extents.count) :
    (place + 1) * e.bits ≤ p.bits.length := by
  rw [p.length_bits, Nat.mul_comm e.bits]
  exact Nat.mul_le_mul_right _ inside

end Sizes

theorem ext (extents_eq : p.extents = q.extents) (bits_eq : p.bits = q.bits) : p = q := by
  cases p
  cases q
  simp_all

/-- The bits of `p` are the elements of `s` in the order of storage. -/
structure Represents (p : PackedStencil e) (s : Stencil e) : Prop where
  wellFormed : p.bits.WellFormed
  extents_eq : p.extents = s.extents
  bit_eq : ∀ n, p.bits.bit n = (s.values.getD (n / e.bits) 0).getLsbD (n % e.bits)

theorem getLsbD_readAt (p : PackedStencil e) (lo : Nat) {k : Nat} (below : k < e.bits) :
    (p.readAt lo).getLsbD k = p.bits.bit (lo + k) := by
  rw [readAt, Element.getLsbD_ofWord, BitStore.getLsbD_read _ _ _ e.bits_le_word]
  simp [below]

theorem Represents.readAt_eq (represents : p.Represents s) (place : Nat) :
    p.readAt (place * e.bits) = s.values.getD place 0 := by
  apply BitVec.eq_of_getLsbD_eq
  intro k below
  have place_eq : (place * e.bits + k) / e.bits = place := by
    rw [Nat.add_comm, Nat.add_mul_div_right _ _ e.bits_pos, Nat.div_eq_of_lt below, Nat.zero_add]
  have offset_eq : (place * e.bits + k) % e.bits = k := by
    rw [Nat.add_comm, Nat.add_mul_mod_self_right, Nat.mod_eq_of_lt below]
  rw [getLsbD_readAt p _ below, represents.bit_eq, place_eq, offset_eq]

theorem Represents.unique (left : p.Represents s) (right : q.Represents s) : p = q := by
  have extents_eq : p.extents = q.extents := by rw [left.extents_eq, right.extents_eq]
  have length_eq : p.bits.length = q.bits.length := by
    rw [p.length_bits, q.length_bits, extents_eq]
  apply ext extents_eq
  apply left.wellFormed.ext right.wellFormed length_eq
  intro n _
  rw [left.bit_eq, right.bit_eq]

section Write

variable {place : Nat} (value : e.Pattern)

theorem wellFormed_writeAt (wellFormed : p.bits.WellFormed)
    (fits : (place + 1) * e.bits ≤ p.bits.length) :
    (p.writeAt (place * e.bits) value).bits.WellFormed :=
  wellFormed.write (BitStore.inRange_element wellFormed fits) _

theorem Represents.write (represents : p.Represents s) (inside : place < s.extents.count) :
    (p.writeAt (place * e.bits) value).Represents (s.write place value) := by
  have fits := p.element_fits (represents.extents_eq ▸ inside)
  have stored : place < s.values.size := s.size_values ▸ inside
  refine ⟨wellFormed_writeAt value represents.wellFormed fits, represents.extents_eq, ?_⟩
  intro n
  simp only [writeAt, Stencil.write, represents.bit_eq,
    BitStore.bit_writeElement represents.wellFormed fits, Array.getD_eq_getD_getElem?,
    Array.getElem?_setIfInBounds]
  by_cases sameElement : n / e.bits = place
  · simp [sameElement, stored]
  · rw [if_neg sameElement, if_neg fun equal => sameElement equal.symm]

end Write

/-- Writing elements in a row: the bits of each element are its own, all others stay. -/
theorem bit_writeAll (wellFormed : p.bits.WellFormed) (values : List e.Pattern) {place : Nat}
    (fits : (place + values.length) * e.bits ≤ p.bits.length) :
    (p.writeAll place values).bits.WellFormed ∧ (p.writeAll place values).extents = p.extents ∧
      ∀ n, (p.writeAll place values).bits.bit n =
        if place ≤ n / e.bits then
          (values[n / e.bits - place]?.map (·.getLsbD (n % e.bits))).getD (p.bits.bit n)
        else p.bits.bit n := by
  induction values generalizing p place with
  | nil => exact ⟨wellFormed, rfl, fun n => by simp [writeAll]⟩
  | cons value rest inductionHypothesis =>
    have firstFits : (place + 1) * e.bits ≤ p.bits.length :=
      Nat.le_trans (Nat.mul_le_mul_right _ (by simp)) fits
    have restFits : (place + 1 + rest.length) * e.bits ≤
        (p.writeAt (place * e.bits) value).bits.length := by
      rw [writeAt, BitStore.length_write]
      exact Nat.le_trans (Nat.mul_le_mul_right _ (by simp; omega)) fits
    obtain ⟨restWellFormed, restExtents, restBits⟩ :=
      inductionHypothesis (wellFormed_writeAt value wellFormed firstFits) restFits
    refine ⟨restWellFormed, restExtents, ?_⟩
    intro n
    rw [writeAll, restBits, writeAt, BitStore.bit_writeElement wellFormed firstFits]
    rcases Nat.lt_trichotomy (n / e.bits) place with before | same | after
    · rw [if_neg (by omega), if_neg (by omega), if_neg (by omega)]
    · rw [if_neg (by omega), if_pos same, if_pos (by omega), same]
      simp
    · have next : n / e.bits - place = n / e.bits - (place + 1) + 1 := by omega
      rw [if_pos (by omega), if_neg (by omega), if_pos (by omega), next, List.getElem?_cons_succ]

theorem zeroed_eq_ok_iff {extents : Extents} :
    zeroed extents = .ok p ↔
      p.extents = extents ∧ p.bits = BitStore.zeros (e.bits * extents.count) := by
  rw [zeroed]
  split
  · next width fits =>
    rw [Extents.width?_eq_size?, size?_eq_some_iff] at fits
    obtain ⟨_, rfl⟩ := fits
    rw [Except.ok.injEq]
    constructor
    · rintro rfl
      exact ⟨rfl, rfl⟩
    · rintro ⟨extents_eq, bits_eq⟩
      exact (ext extents_eq bits_eq).symm
  · next tooLarge =>
    refine iff_of_false (by simp) ?_
    rintro ⟨rfl, _⟩
    rw [p.width_eq] at tooLarge
    cases tooLarge

theorem exists_zeroed {extents : Extents} (fits : e.bits * extents.count < 2 ^ 64) :
    ∃ p : PackedStencil e, zeroed extents = .ok p := by
  refine ⟨⟨extents, .zeros (e.bits * extents.count), ?_⟩, zeroed_eq_ok_iff.mpr ⟨rfl, rfl⟩⟩
  rw [Extents.width?_eq_size?]
  exact size?_eq_some fits

theorem zeroed_of_overflow {extents : Extents} (tooLarge : ¬ e.bits * extents.count < 2 ^ 64) :
    (zeroed extents : Except Stop (PackedStencil e)) = .error .overflow := by
  rw [zeroed]
  split
  · next fits =>
    rw [Extents.width?_eq_size?, size?_eq_some_iff] at fits
    exact absurd fits.1 tooLarge
  · rfl

/-- Packing gives the packed form of a stencil, if there is one. -/
theorem pack_eq_ok_iff : s.pack = .ok p ↔ p.Represents s := by
  have represents {q : PackedStencil e} (isZero : zeroed s.extents = .ok q) :
      (q.writeAll 0 s.values.toList).Represents s := by
    obtain ⟨extents_eq, bits_eq⟩ := zeroed_eq_ok_iff.mp isZero
    have fits : (0 + s.values.toList.length) * e.bits ≤ q.bits.length := by
      rw [q.length_bits, extents_eq, ← s.size_values]
      simp [Nat.mul_comm]
    have wellFormed : q.bits.WellFormed := bits_eq ▸ BitStore.wellFormed_zeros _
    obtain ⟨wellFormed, sameExtents, bits⟩ := bit_writeAll wellFormed s.values.toList fits
    refine ⟨wellFormed, sameExtents.trans extents_eq, ?_⟩
    intro n
    rw [bits, bits_eq, BitStore.bit_zeros, if_pos (Nat.zero_le _), Array.getD_eq_getD_getElem?,
      Nat.sub_zero, Array.getElem?_toList]
    cases s.values[n / e.bits]? <;> simp
  have packed_eq : s.pack = (zeroed s.extents).map (·.writeAll 0 s.values.toList) := by
    rw [Stencil.pack]
    cases zeroed s.extents <;> rfl
  constructor
  · intro packed
    rw [packed_eq] at packed
    cases isZero : (zeroed s.extents : Except Stop (PackedStencil e)) with
    | ok q =>
      rw [isZero] at packed
      cases packed
      exact represents isZero
    | error stop =>
      rw [isZero] at packed
      cases packed
  · intro isForm
    obtain ⟨q, isZero⟩ := exists_zeroed (isForm.extents_eq ▸ p.width_lt)
    rw [packed_eq, isZero, isForm.unique (represents isZero)]
    rfl

theorem exists_pack (fits : e.bits * s.values.size < 2 ^ 64) : ∃ p, s.pack = .ok p := by
  rw [s.size_values] at fits
  obtain ⟨q, isZero⟩ := exists_zeroed fits
  exact ⟨q.writeAll 0 s.values.toList, by rw [Stencil.pack, isZero]; rfl⟩

theorem pack_of_overflow (tooLarge : ¬ e.bits * s.values.size < 2 ^ 64) :
    s.pack = .error .overflow := by
  rw [s.size_values] at tooLarge
  rw [Stencil.pack, zeroed_of_overflow tooLarge]
  rfl

section Access

variable (p) (i : Index)

/-- The first bit of an element in bounds is at a size. -/
theorem bitOffset_eq : p.bitOffset i = (p.extents.linear i).map (· * e.bits) := by
  rw [bitOffset, Extents.linear_eq_ite p.count_lt]
  split
  · next inside =>
    have fits : p.extents.place i * e.bits < 2 ^ 64 := by
      refine Nat.lt_of_le_of_lt ?_ p.width_lt
      rw [Nat.mul_comm]
      exact Nat.mul_le_mul_left _ (Nat.le_of_lt (Extents.place_lt_count inside))
    change orOverflow (size? _) = .ok _
    rw [size?_eq_some fits]
    rfl
  · rfl

theorem get_eq_map : p.get i = (p.extents.linear i).map fun place => p.readAt (place * e.bits) := by
  rw [get, bitOffset_eq]
  cases p.extents.linear i <;> rfl

theorem set_eq_map (value : e.Pattern) :
    p.set i value = (p.extents.linear i).map fun place => p.writeAt (place * e.bits) value := by
  rw [set, bitOffset_eq]
  cases p.extents.linear i <;> rfl

end Access

/-- The packed stencils that the operations give: empty ones, packed ones, rows of bits filled by
writes inside them, and what writing elements makes of these. -/
inductive Reachable : PackedStencil e → Prop
  | zeroed {extents : Extents} {p : PackedStencil e} : zeroed extents = .ok p → Reachable p
  | packed {s : Stencil e} {p : PackedStencil e} : s.pack = .ok p → Reachable p
  | raw {extents : Extents} {wordBits : Nat} {bits : BitStore} {p : PackedStencil e} :
      bits.Built → ofBits extents wordBits bits = .ok p → Reachable p
  | set {p q : PackedStencil e} {i : Index} {value : e.Pattern} :
      Reachable p → p.set i value = .ok q → Reachable q

theorem bits_of_ofBits {extents : Extents} {wordBits : Nat} {bits : BitStore}
    (taken : ofBits extents wordBits bits = .ok p) : p.bits = bits := by
  rw [ofBits] at taken
  split at taken
  · cases taken
  · split at taken
    · split at taken
      · cases taken
        rfl
      · cases taken
    · cases taken

theorem wellFormed_of_set (wellFormed : p.bits.WellFormed) {i : Index} {value : e.Pattern}
    (written : p.set i value = .ok q) : q.bits.WellFormed := by
  rw [set_eq_map, Extents.linear_eq_ite p.count_lt] at written
  split at written
  · next inside =>
    cases written
    exact wellFormed_writeAt value wellFormed (p.element_fits (Extents.place_lt_count inside))
  · cases written

theorem Reachable.wellFormed (reachable : p.Reachable) : p.bits.WellFormed := by
  induction reachable with
  | zeroed isZero =>
    rw [(zeroed_eq_ok_iff.mp isZero).2]
    exact BitStore.wellFormed_zeros _
  | packed isForm => exact (pack_eq_ok_iff.mp isForm).wellFormed
  | raw built taken =>
    rw [bits_of_ofBits taken]
    exact built.wellFormed
  | set _ written wellFormed => exact wellFormed_of_set wellFormed written

end PackedStencil

end StreamSynth
