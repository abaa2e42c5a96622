/-!
# Words of 64 bits

Integer constants are signed words of 64 bits, and sizes are unsigned ones. Arithmetic is done on
exact numbers and brought back to a word only when the result fits.
-/

namespace StreamSynth

def int64? (value : Int) : Option Int64 :=
  if Int64.minValue.toInt ≤ value ∧ value ≤ Int64.maxValue.toInt then some (Int64.ofInt value)
  else none

theorem int64?_eq_some_iff {value : Int} {word : Int64} :
    int64? value = some word ↔ word.toInt = value := by
  unfold int64?
  split
  · next fits =>
    have low : -2 ^ 63 ≤ value := by simpa using fits.1
    have high : value < 2 ^ 63 := by
      have := fits.2
      simp only [Int64.toInt_maxValue] at this
      omega
    rw [Option.some.injEq, ← Int64.toInt_inj, Int64.toInt_ofInt_of_le low high, eq_comm]
  · next outside =>
    constructor
    · rintro ⟨⟩
    · rintro rfl
      exact absurd ⟨word.minValue_le_toInt, word.toInt_le⟩ outside

def size? (value : Nat) : Option Nat := if value < UInt64.size then some value else none

theorem int64?_toInt (word : Int64) : int64? word.toInt = some word :=
  int64?_eq_some_iff.mpr rfl

end StreamSynth
