import StreamSynth.Proofs.Identifier
import StreamSynth.Region.FreshName

/-!
# Fresh names are new

The candidates for a base all differ, so among one more candidate than there are issued names one
is free, and the search ends at the first of these.
-/

namespace StreamSynth.FreshNames

theorem toList_candidate (base : String) (n : Nat) :
    (candidate base n).toList =
      base.toList ++ if n = 0 then [] else '_' :: Nat.toDigits 10 n := by
  unfold candidate
  split <;> simp

theorem toDigits_injective {m n : Nat} (equal : Nat.toDigits 10 m = Nat.toDigits 10 n) :
    m = n := by
  rw [← @Nat.ofDigitChars_ten_toDigits m, equal, Nat.ofDigitChars_ten_toDigits]

theorem candidate_injective {base : String} {m n : Nat}
    (equal : candidate base m = candidate base n) : m = n := by
  have chars := congrArg String.toList equal
  rw [toList_candidate, toList_candidate] at chars
  have suffixes := List.append_cancel_left chars
  by_cases first : m = 0 <;> by_cases second : n = 0
  · rw [first, second]
  · simp [first, second] at suffixes
  · simp [first, second] at suffixes
  · rw [if_neg first, if_neg second] at suffixes
    exact toDigits_injective (List.cons.inj suffixes).2

/-- The search returns the candidate of the least number from `n` on that is not issued, if it
looks far enough. -/
theorem search_eq_candidate (issued : List String) (base : String) (tries n : Nat) :
    ∃ m, n ≤ m ∧ m ≤ n + tries ∧ search issued base tries n = candidate base m ∧
      (∀ k, n ≤ k → k < m → candidate base k ∈ issued) ∧
      (m < n + tries → candidate base m ∉ issued) := by
  induction tries generalizing n with
  | zero => exact ⟨n, by omega, by omega, rfl, fun k _ below => by omega, by omega⟩
  | succ tries inductionHypothesis =>
    by_cases taken : candidate base n ∈ issued
    · obtain ⟨m, _, upTo, result, before, free⟩ := inductionHypothesis (n + 1)
      refine ⟨m, by omega, by omega, by rw [search, if_pos taken, result], ?_, ?_⟩
      · intro k onward below
        by_cases first : k = n
        · exact first ▸ taken
        · exact before k (by omega) below
      · exact fun below => free (by omega)
    · exact ⟨n, by omega, by omega, by rw [search, if_neg taken],
        fun k _ below => by omega, fun _ => taken⟩

/-- Not all of one candidate more than there are issued names can be issued. -/
theorem exists_candidate_notMem (issued : List String) (base : String) :
    ∃ k ≤ issued.length, candidate base k ∉ issued := by
  apply Classical.byContradiction
  intro none
  have all : ∀ k ≤ issued.length, candidate base k ∈ issued := by
    intro k bounded
    exact Classical.byContradiction fun free => none ⟨k, bounded, free⟩
  have nodup : ((List.range (issued.length + 1)).map (candidate base)).Nodup :=
    List.pairwise_map.mpr (List.nodup_range.imp fun different equal =>
      different (candidate_injective equal))
  have included : (List.range (issued.length + 1)).map (candidate base) ⊆ issued := by
    intro name membership
    obtain ⟨k, inRange, rfl⟩ := List.mem_map.mp membership
    exact all k (Nat.lt_succ_iff.mp (List.mem_range.mp inRange))
  have tooMany := nodup.length_le_of_subset included
  simp only [List.length_map, List.length_range] at tooMany
  omega

variable (names : FreshNames) (base : String)

/-- A fresh name is the candidate of the least number that is not issued. -/
theorem unique_eq_candidate :
    ∃ m ≤ names.issued.length, (names.unique base).1 = candidate base m ∧
      candidate base m ∉ names.issued ∧ ∀ k < m, candidate base k ∈ names.issued := by
  obtain ⟨m, _, upTo, result, before, free⟩ :=
    search_eq_candidate names.issued base names.issued.length 0
  obtain ⟨k, bounded, absent⟩ := exists_candidate_notMem names.issued base
  refine ⟨m, by omega, result, ?_, fun k below => before k (Nat.zero_le k) below⟩
  by_cases stopped : m < 0 + names.issued.length
  · exact free stopped
  · have notBefore : ¬ k < m := fun below => absent (before k (Nat.zero_le k) below)
    have last : k = m := by omega
    exact last ▸ absent

theorem unique_notMem : (names.unique base).1 ∉ names.issued := by
  obtain ⟨m, _, result, free, _⟩ := names.unique_eq_candidate base
  rw [result]
  exact free

@[simp] theorem issued_unique :
    (names.unique base).2.issued = (names.unique base).1 :: names.issued := rfl

theorem isIdentifier_unique (isIdentifier : IsIdentifier base.toList) :
    IsIdentifier (names.unique base).1.toList := by
  obtain ⟨m, _, result, _, _⟩ := names.unique_eq_candidate base
  rw [result, toList_candidate]
  apply isIdentifier.append
  · intro c membership
    split at membership
    · simp at membership
    · rcases List.mem_cons.mp membership with rfl | digit
      · exact isIdentifierChar_underscore
      · exact isIdentifierChar_of_isDigit
          (Nat.isDigit_of_mem_toDigits (by decide) (by decide) digit)
  · split
    · rfl
    · rfl

end StreamSynth.FreshNames
