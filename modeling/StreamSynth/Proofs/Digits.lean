/-!
# Decimal digits

The digits of a number are read back whole, from any text that does not go on with a digit.
-/

namespace StreamSynth

theorem toDigits_eq_cons (n : Nat) : ∃ first more, Nat.toDigits 10 n = first :: more ∧
    first.isDigit = true ∧ ∀ c ∈ more, c.isDigit = true := by
  obtain ⟨first, more, areDigits⟩ := List.exists_cons_of_ne_nil (@Nat.toDigits_ne_nil n 10)
  have isDigit : ∀ c ∈ first :: more, c.isDigit = true := by
    rw [← areDigits]
    exact fun c membership => Nat.isDigit_of_mem_toDigits (by decide) (by decide) membership
  exact ⟨first, more, areDigits, List.forall_mem_cons.mp isDigit⟩

/-- Characters of one kind are split off where the text does not go on with the kind. -/
theorem span_kind {kind : Char → Bool} {chars rest : List Char}
    (areKind : ∀ c ∈ chars, kind c = true) (ends : rest.head?.any kind = false) :
    (chars ++ rest).takeWhile kind = chars ∧ (chars ++ rest).dropWhile kind = rest := by
  rw [List.takeWhile_append_of_pos areKind, List.dropWhile_append_of_pos areKind]
  cases rest with
  | nil => simp
  | cons c rest =>
    have notKind : kind c = false := ends
    simp [notKind]

end StreamSynth
