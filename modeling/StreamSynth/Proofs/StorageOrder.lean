import Mathlib.Algebra.BigOperators.Group.List.Lemmas
import Mathlib.Algebra.Group.Nat.Defs
import Mathlib.Data.List.Nodup
import StreamSynth.Stencil.Extents

/-!
# The order of storage

The indices of a stencil, the first dimension running fastest, have the places zero, one, two and
so on up to the number of elements. So an index in bounds and its place determine each other. Sizes
are compared with the exact numbers they stand for: where the number of elements fits a size of 64
bits, so does every number on the way to a place.
-/

namespace StreamSynth

section Sizes

theorem size?_eq_some {value : Nat} (fits : value < 2 ^ 64) : size? value = some value :=
  if_pos fits

theorem size?_eq_none {value : Nat} (tooLarge : ¬ value < 2 ^ 64) : size? value = none :=
  if_neg tooLarge

theorem size?_eq_some_iff {value n : Nat} :
    size? value = some n ↔ value < 2 ^ 64 ∧ value = n := by
  by_cases fits : value < 2 ^ 64
  · rw [size?_eq_some fits, Option.some.injEq]
    exact (and_iff_right fits).symm
  · rw [size?_eq_none fits]
    exact iff_of_false (by simp) fun both => fits both.1

/-- No product on the way is larger than the last one, so only that one has to fit. -/
theorem foldlM_size?_mul {factors : List Nat} (positive : ∀ factor ∈ factors, 0 < factor)
    {start : Nat} (fits : start < 2 ^ 64) :
    factors.foldlM (fun product factor => size? (product * factor)) start =
      size? (start * factors.prod) := by
  induction factors generalizing start with
  | nil => simp [size?_eq_some fits]
  | cons factor factors inductionHypothesis =>
    obtain ⟨_, positive⟩ := List.forall_mem_cons.mp positive
    rw [List.foldlM_cons, List.prod_cons, ← Nat.mul_assoc]
    by_cases nextFits : start * factor < 2 ^ 64
    · rw [size?_eq_some nextFits]
      exact inductionHypothesis positive nextFits
    · have grows : start * factor ≤ start * factor * factors.prod :=
        Nat.le_mul_of_pos_right _ (List.prod_pos_iff_forall_pos_nat.mpr positive)
      rw [size?_eq_none nextFits, size?_eq_none (by omega)]
      rfl

end Sizes

theorem range_mul (width rows : Nat) :
    List.range (width * rows) =
      (List.range rows).flatMap fun row => (List.range width).map (· + row * width) := by
  induction rows with
  | zero => rfl
  | succ rows inductionHypothesis =>
    rw [Nat.mul_succ, List.range_add, inductionHypothesis, List.range_succ, List.flatMap_append,
      List.flatMap_singleton]
    simp only [Nat.mul_comm width, Nat.add_comm]

namespace Extents

def count (extents : Extents) : Nat := extents.e0 * extents.e1 * extents.e2 * extents.e3

def place (extents : Extents) (i : Index) : Nat :=
  i.i0 + i.i1 * extents.e0 + i.i2 * (extents.e0 * extents.e1) +
    i.i3 * (extents.e0 * extents.e1 * extents.e2)

theorem add_mul_lt_mul {low high lowExtent highExtent : Nat}
    (lowInside : low < lowExtent) (highInside : high < highExtent) :
    low + high * lowExtent < lowExtent * highExtent := by
  calc low + high * lowExtent
      < lowExtent + high * lowExtent := by omega
    _ = (high + 1) * lowExtent := by rw [Nat.succ_mul, Nat.add_comm]
    _ ≤ highExtent * lowExtent := Nat.mul_le_mul_right _ highInside
    _ = lowExtent * highExtent := Nat.mul_comm _ _

variable {extents : Extents} {i : Index}

theorem contains_eq_true_iff :
    extents.contains i = true ↔
      i.i0 < extents.e0 ∧ i.i1 < extents.e1 ∧ i.i2 < extents.e2 ∧ i.i3 < extents.e3 := by
  simp only [contains, Bool.and_eq_true, decide_eq_true_eq, and_assoc]

/-- An index in bounds has its place in the row of elements. -/
theorem place_lt_count (inside : extents.contains i = true) :
    extents.place i < extents.count := by
  obtain ⟨inside0, inside1, inside2, inside3⟩ := contains_eq_true_iff.mp inside
  -- One dimension after the other: the row so far is the low part of the next.
  exact add_mul_lt_mul (add_mul_lt_mul (add_mul_lt_mul inside0 inside1) inside2) inside3

theorem map_place_indices (extents : Extents) :
    extents.indices.map extents.place = List.range extents.count := by
  simp only [count, range_mul, indices, List.map_flatMap, List.map_map]
  rfl

theorem mem_indices_iff : i ∈ extents.indices ↔ extents.contains i = true := by
  simp only [indices, List.mem_flatMap, List.mem_map, List.mem_range, contains_eq_true_iff]
  constructor
  · rintro ⟨i3, inside3, i2, inside2, i1, inside1, i0, inside0, rfl⟩
    exact ⟨inside0, inside1, inside2, inside3⟩
  · rintro ⟨inside0, inside1, inside2, inside3⟩
    exact ⟨i.i3, inside3, i.i2, inside2, i.i1, inside1, i.i0, inside0, rfl⟩

theorem length_indices (extents : Extents) : extents.indices.length = extents.count := by
  have lengths := congrArg List.length extents.map_place_indices
  rwa [List.length_map, List.length_range] at lengths

/-- Along the order of storage the places grow. -/
theorem pairwise_place_indices (extents : Extents) :
    extents.indices.Pairwise fun i j => extents.place i < extents.place j := by
  have growing := List.pairwise_lt_range (n := extents.count)
  rwa [← extents.map_place_indices, List.pairwise_map] at growing

theorem nodup_indices (extents : Extents) : extents.indices.Nodup := by
  apply List.Nodup.of_map extents.place
  rw [extents.map_place_indices]
  exact List.nodup_range

theorem place_getElem_indices {k : Nat} (inside : k < extents.indices.length) :
    extents.place extents.indices[k] = k := by
  have placed : k < (extents.indices.map extents.place).length := by rwa [List.length_map]
  calc extents.place extents.indices[k]
      = (extents.indices.map extents.place)[k] := (List.getElem_map extents.place).symm
    _ = k := by simp only [extents.map_place_indices, List.getElem_range]

/-- The indices before one in the order of storage are those with a smaller place. -/
theorem mem_before_iff {before after : List Index} (split : extents.indices = before ++ i :: after)
    {j : Index} :
    j ∈ before ↔ extents.contains j = true ∧ extents.place j < extents.place i := by
  have growing := extents.pairwise_place_indices
  rw [split, List.pairwise_append, List.pairwise_cons] at growing
  obtain ⟨_, ⟨behind, _⟩, ahead⟩ := growing
  constructor
  · intro isBefore
    refine ⟨mem_indices_iff.mp ?_, ahead j isBefore i List.mem_cons_self⟩
    rw [split]
    exact List.mem_append_left _ isBefore
  · rintro ⟨inside, smaller⟩
    have membership := mem_indices_iff.mpr inside
    rw [split, List.mem_append, List.mem_cons] at membership
    obtain isBefore | rfl | isAfter := membership
    · exact isBefore
    · exact absurd smaller (Nat.lt_irrefl _)
    · exact absurd smaller (Nat.lt_asymm (behind j isAfter))

theorem count_eq_prod (extents : Extents) : extents.count = extents.toList.prod := by
  simp [count, toList, Nat.mul_assoc]

theorem pos_of_mem_toList {extent : Nat} (membership : extent ∈ extents.toList) : 0 < extent := by
  obtain ⟨positive0, positive1, positive2, positive3⟩ := extents.positive
  simp only [toList, List.mem_cons, List.not_mem_nil, or_false] at membership
  rcases membership with rfl | rfl | rfl | rfl <;> assumption

theorem le_count {extent : Nat} (membership : extent ∈ extents.toList) :
    extent ≤ extents.count := by
  have positive : 0 < extents.toList.prod :=
    List.prod_pos_iff_forall_pos_nat.mpr fun _ => pos_of_mem_toList
  rw [count_eq_prod]
  exact Nat.le_of_dvd positive (List.dvd_prod membership)

/-- The number of elements is known exactly when it fits a size. -/
theorem count?_eq_size? (extents : Extents) : extents.count? = size? extents.count := by
  have positive : ∀ n ∈ extents.toList, 0 < n := fun _ => pos_of_mem_toList
  have folded := foldlM_size?_mul positive (show 1 < 2 ^ 64 by decide)
  rwa [Nat.one_mul, ← count_eq_prod] at folded

theorem count?_eq_some_iff {n : Nat} :
    extents.count? = some n ↔ extents.count < 2 ^ 64 ∧ extents.count = n := by
  rw [count?_eq_size?, size?_eq_some_iff]

/-- Every number on the way to a place is at most the place itself. -/
theorem place?_eq_some (inside : extents.contains i = true) (fits : extents.count < 2 ^ 64) :
    extents.place? i = some (extents.place i) := by
  have below : extents.place i < 2 ^ 64 := Nat.lt_trans (place_lt_count inside) fits
  obtain ⟨_, inside1, inside2, _⟩ := contains_eq_true_iff.mp inside
  have rows_le : i.i2 * extents.e0 ≤ i.i2 * extents.e0 * extents.e1 :=
    Nat.le_mul_of_pos_right _ (by omega)
  have rows_le' : i.i3 * extents.e0 ≤ i.i3 * extents.e0 * extents.e1 :=
    Nat.le_mul_of_pos_right _ (by omega)
  have planes_le : i.i3 * extents.e0 * extents.e1 ≤
      i.i3 * extents.e0 * extents.e1 * extents.e2 :=
    Nat.le_mul_of_pos_right _ (by omega)
  simp only [place, ← Nat.mul_assoc] at below ⊢
  simp (disch := omega) only [place?, bind, size?_eq_some, Option.bind_some]

theorem linear_eq_ite (fits : extents.count < 2 ^ 64) (i : Index) :
    extents.linear i = if extents.contains i then .ok (extents.place i)
      else .error (.refused (.indexOutOfBounds i.toList extents.toList)) := by
  rw [linear]
  split
  · next inside =>
    rw [place?_eq_some inside fits]
    rfl
  · rfl

theorem linear_eq_ok_iff (fits : extents.count < 2 ^ 64) {n : Nat} :
    extents.linear i = .ok n ↔ extents.contains i = true ∧ extents.place i = n := by
  rw [linear_eq_ite fits]
  split
  · next inside => simp [inside]
  · next outside => simp [outside]

theorem place_injective {j : Index} (inside : extents.contains i = true)
    (inside' : extents.contains j = true) (samePlace : extents.place i = extents.place j) :
    i = j := by
  have distinct : (extents.indices.map extents.place).Nodup := by
    rw [extents.map_place_indices]
    exact List.nodup_range
  exact List.inj_on_of_nodup_map distinct (mem_indices_iff.mpr inside) (mem_indices_iff.mpr inside')
    samePlace

/-- Every number below the number of elements is the place of one index. -/
theorem existsUnique_linear (fits : extents.count < 2 ^ 64) {n : Nat}
    (inside : n < extents.count) : ∃! i, extents.linear i = .ok n := by
  have isPlace : n ∈ extents.indices.map extents.place := by
    rw [extents.map_place_indices]
    exact List.mem_range.mpr inside
  obtain ⟨i, membership, isPlace⟩ := List.mem_map.mp isPlace
  have iInside := mem_indices_iff.mp membership
  refine ⟨i, (linear_eq_ok_iff fits).mpr ⟨iInside, isPlace⟩, ?_⟩
  intro j placed
  obtain ⟨jInside, samePlace⟩ := (linear_eq_ok_iff fits).mp placed
  exact place_injective jInside iInside (samePlace.trans isPlace.symm)

/-- Accepted extents are the given ones, with ones for the unused dimensions. -/
theorem toList_of_ofList {dims : List Nat} (accepted : ofList dims = .ok extents) :
    extents.toList = dims ++ List.replicate (4 - dims.length) 1 := by
  rw [ofList] at accepted
  split at accepted
  · cases accepted
  · next counted =>
    split at accepted
    · cases accepted
    · cases accepted
      match dims, counted with
      | [_], _ | [_, _], _ | [_, _, _], _ | [_, _, _, _], _ => rfl
      | [], counted | _ :: _ :: _ :: _ :: _ :: _, counted => simp at counted

theorem count_of_ofList {dims : List Nat} (accepted : ofList dims = .ok extents) :
    extents.count = dims.prod := by
  simp [count_eq_prod, toList_of_ofList accepted]

/-- An index has a place exactly when it is in bounds. The order of storage goes through the indices
in bounds, none of them twice, and the place of each is its position in this order. So places and
indices in bounds determine each other, and where the number of elements fits a size of 64 bits, no
product or sum on the way to a place leaves it. -/
theorem linear_bijection {dims : List Nat} (accepted : ofList dims = .ok extents)
    (fits : extents.count < 2 ^ 64) :
    extents.count = dims.prod ∧ extents.count? = some extents.count ∧
      (∀ i, (∃ n, extents.linear i = .ok n) ↔
        i.i0 < extents.e0 ∧ i.i1 < extents.e1 ∧ i.i2 < extents.e2 ∧ i.i3 < extents.e3) ∧
      extents.indices.length = extents.count ∧
      (∀ i, i ∈ extents.indices ↔
        i.i0 < extents.e0 ∧ i.i1 < extents.e1 ∧ i.i2 < extents.e2 ∧ i.i3 < extents.e3) ∧
      extents.indices.Nodup ∧
      (∀ k (inside : k < extents.indices.length), extents.linear extents.indices[k] = .ok k) ∧
      (∀ i n, extents.linear i = .ok n → n < extents.count ∧ extents.place? i = some n) ∧
      ∀ n < extents.count, ∃! i, extents.linear i = .ok n := by
  refine ⟨count_of_ofList accepted, count?_eq_some_iff.mpr ⟨fits, rfl⟩, ?_,
    extents.length_indices, ?_, extents.nodup_indices, ?_, ?_, ?_⟩
  · intro i
    simp only [linear_eq_ok_iff fits, exists_and_left, exists_eq', and_true, contains_eq_true_iff]
  · intro i
    rw [mem_indices_iff, contains_eq_true_iff]
  · intro k inside
    exact (linear_eq_ok_iff fits).mpr
      ⟨mem_indices_iff.mp (List.getElem_mem inside), place_getElem_indices inside⟩
  · intro i n placed
    obtain ⟨inside, rfl⟩ := (linear_eq_ok_iff fits).mp placed
    exact ⟨place_lt_count inside, place?_eq_some inside fits⟩
  · intro n inside
    exact existsUnique_linear fits inside

/-- Two dimensions with as many elements as a size of 64 bits can count. -/
theorem linear_bijection_largest :
    ∃ extents, ofList [4294967295, 4294967297] = .ok extents ∧ extents.count = 2 ^ 64 - 1 ∧
      extents.count? = some (2 ^ 64 - 1) ∧
      extents.indices.length = 2 ^ 64 - 1 ∧
      extents.place? ⟨4294967294, 4294967296, 0, 0⟩ = some (2 ^ 64 - 2) ∧
      ∃! i, extents.linear i = .ok (2 ^ 64 - 2) := by
  obtain ⟨_, counted, _, length_eq, _, _, _, places, unique⟩ :=
    @linear_bijection ⟨4294967295, 4294967297, 1, 1, by decide⟩ [4294967295, 4294967297] rfl
      (by decide)
  exact ⟨_, rfl, rfl, counted, length_eq, (places _ _ rfl).2, unique _ (by decide)⟩

end Extents

end StreamSynth
