import Mathlib.Algebra.Group.Int.Defs
import Mathlib.Algebra.Group.Nat.Defs
import StreamSynth.Proofs.Access
import StreamSynth.Stencil.HostBuffer

/-!
# Copying host buffers

A buffer is copied into a stencil when their extents agree and every element that the stencil needs
lies in the memory of the buffer. Otherwise the first dimension that disagrees is reported, or the
first element outside. Words of 64 bits set two limits to this. Memory for the stencil has to have
a size that is a word, or else the copy stops without an answer. And extents are compared as words,
so two that differ by a multiple of `2 ^ 64` pass for equal; such a stencil is always too large to
be copied.
-/

namespace StreamSynth

section Words

theorem exists_int64? {value : Int} (low : -2 ^ 63 ≤ value) (high : value < 2 ^ 63) :
    ∃ word, int64? value = some word ∧ word.toInt = value := by
  have exact_eq : (Int64.ofInt value).toInt = value := Int64.toInt_ofInt_of_le low high
  exact ⟨_, int64?_eq_some_iff.mpr exact_eq, exact_eq⟩

/-- A number read as a word is the given word when the two differ by whole rounds. -/
theorem int64_ofNat_eq_iff {n : Nat} {word : Int64} :
    Int64.ofNat n = word ↔ (2 ^ 64 : Int) ∣ n - word.toInt := by
  have isResidue : word.toInt.bmod (2 ^ 64) = word.toInt := word.toInt_bmod
  calc Int64.ofNat n = word
      ↔ (n : Int).bmod (2 ^ 64) = word.toInt.bmod (2 ^ 64) := by
        rw [← Int64.ofInt_eq_ofNat, Int64.ofInt_eq_iff_bmod_eq_toInt, isResidue]
    _ ↔ (2 ^ 64 : Int) ∣ n - word.toInt := by
        rw [Int.bmod_eq_bmod_iff_bmod_sub_eq_zero, ← Int.dvd_iff_bmod_eq_zero]
        rfl

end Words

namespace Extents

variable {extents : Extents} {i : Index}

theorem reservable_iff {e : Element} :
    extents.reservable e = true ↔ extents.count * (e.bits / 8) < 2 ^ 63 := by
  rw [reservable, Option.any_eq_true]
  constructor
  · rintro ⟨count, counted, isReservable⟩
    obtain ⟨_, rfl⟩ := count?_eq_some_iff.mp counted
    obtain ⟨word, isWord⟩ := Option.isSome_iff_exists.mp isReservable
    have below := word.toInt_lt
    rw [int64?_eq_some_iff.mp isWord] at below
    exact_mod_cast below
  · intro fits
    have count_le : extents.count ≤ extents.count * (e.bits / 8) :=
      Nat.le_mul_of_pos_right _ e.bytes_pos
    have nonnegative := Int.natCast_nonneg (extents.count * (e.bits / 8))
    have below : ((extents.count * (e.bits / 8) : Nat) : Int) < 2 ^ 63 := by exact_mod_cast fits
    obtain ⟨word, isWord, _⟩ := exists_int64? (by omega) below
    refine ⟨extents.count, count?_eq_some_iff.mpr ⟨by omega, rfl⟩, ?_⟩
    rw [isWord]
    rfl

theorem le_place (inside : extents.contains i = true) {position : Nat}
    (listed : position ∈ i.toList) : position ≤ extents.place i := by
  obtain ⟨inside0, inside1, inside2, inside3⟩ := contains_eq_true_iff.mp inside
  have row : i.i1 ≤ i.i1 * extents.e0 := Nat.le_mul_of_pos_right _ (by omega)
  have plane : i.i2 ≤ i.i2 * (extents.e0 * extents.e1) :=
    Nat.le_mul_of_pos_right _ (Nat.mul_pos (by omega) (by omega))
  have volume : i.i3 ≤ i.i3 * (extents.e0 * extents.e1 * extents.e2) :=
    Nat.le_mul_of_pos_right _ (Nat.mul_pos (Nat.mul_pos (by omega) (by omega)) (by omega))
  simp only [Index.toList, List.mem_cons, List.not_mem_nil, or_false] at listed
  rw [place]
  omega

end Extents

namespace HostBuffer

variable {e : Element} {b : HostBuffer e} {extents : Extents} {i : Index}

def offset (b : HostBuffer e) (i : Index) : Int :=
  i.i0 * b.stride.d0.toInt + i.i1 * b.stride.d1.toInt + i.i2 * b.stride.d2.toInt +
    i.i3 * b.stride.d3.toInt

def OffsetsFit (b : HostBuffer e) (extents : Extents) : Prop :=
  ∀ i, extents.contains i = true → -2 ^ 63 ≤ b.offset i ∧ b.offset i < 2 ^ 63

theorem advance_eq_some (start : Int64) {position : Nat} {stride : Int64}
    (small : position < 2 ^ 63)
    (distanceFits : -2 ^ 63 ≤ position * stride.toInt ∧ position * stride.toInt < 2 ^ 63)
    (sumFits : -2 ^ 63 ≤ start.toInt + position * stride.toInt ∧
      start.toInt + position * stride.toInt < 2 ^ 63) :
    ∃ next, advance start (position, stride) = some next ∧
      next.toInt = start.toInt + position * stride.toInt := by
  obtain ⟨distance, isDistance, distance_eq⟩ := exists_int64? distanceFits.1 distanceFits.2
  obtain ⟨next, isNext, next_eq⟩ := exists_int64? sumFits.1 sumFits.2
  refine ⟨next, ?_, next_eq⟩
  rw [advance, Int64.toInt_ofNat_of_lt small, isDistance]
  change int64? (start.toInt + distance.toInt) = some next
  rw [distance_eq, isNext]

section Run

variable {positions : List Nat} {strides : List Int64}

def distance : List Nat → List Int64 → Int
  | position :: positions, stride :: strides =>
    position * stride.toInt + distance positions strides
  | _, _ => 0

theorem exists_standing (positions : List Nat) (strides : List Int64) :
    ∃ standing, List.Forall₂ (· ≤ ·) standing positions ∧ distance standing strides = 0 := by
  induction positions generalizing strides with
  | nil => exact ⟨[], .nil, rfl⟩
  | cons position positions inductionHypothesis =>
    obtain ⟨standing, closer, stands⟩ := inductionHypothesis strides.tail
    refine ⟨0 :: standing, .cons (Nat.zero_le position) closer, ?_⟩
    cases strides with
    | nil => rfl
    | cons stride strides =>
      rw [List.tail_cons] at stands
      simp [distance, stands]

/-- A run over the dimensions meets words only when all positions closer to the origin lead to
words: a product is the distance of one position with zeros around it, and a sum is the distance of
the positions so far with zeros behind them. -/
theorem foldlM_advance_eq_some (start : Int64) (small : ∀ position ∈ positions, position < 2 ^ 63)
    (fits : ∀ closer, List.Forall₂ (· ≤ ·) closer positions →
      (-2 ^ 63 ≤ distance closer strides ∧ distance closer strides < 2 ^ 63) ∧
        -2 ^ 63 ≤ start.toInt + distance closer strides ∧
        start.toInt + distance closer strides < 2 ^ 63) :
    ∃ word, (positions.zip strides).foldlM advance start = some word ∧
      word.toInt = start.toInt + distance positions strides := by
  induction positions generalizing start strides with
  | nil => exact ⟨start, rfl, (Int.add_zero _).symm⟩
  | cons position positions inductionHypothesis =>
    cases strides with
    | nil => exact ⟨start, rfl, (Int.add_zero _).symm⟩
    | cons stride strides =>
      obtain ⟨standing, standingCloser, stands⟩ := exists_standing positions strides
      obtain ⟨productFits, sumFits⟩ :=
        fits (position :: standing) (.cons (Nat.le_refl _) standingCloser)
      rw [distance, stands, Int.add_zero] at productFits sumFits
      obtain ⟨next, isNext, next_eq⟩ :=
        advance_eq_some start (small position List.mem_cons_self) productFits sumFits
      have fitsBehind (closer : List Nat) (isCloser : List.Forall₂ (· ≤ ·) closer positions) :
          (-2 ^ 63 ≤ distance closer strides ∧ distance closer strides < 2 ^ 63) ∧
            -2 ^ 63 ≤ next.toInt + distance closer strides ∧
            next.toInt + distance closer strides < 2 ^ 63 := by
        have behind := (fits (0 :: closer) (.cons (Nat.zero_le _) isCloser)).1
        have through := (fits (position :: closer) (.cons (Nat.le_refl _) isCloser)).2
        rw [distance] at behind through
        rw [next_eq, Int.add_assoc]
        exact ⟨by simpa using behind, through⟩
      obtain ⟨word, isWord, word_eq⟩ := inductionHypothesis next
        (fun position listed => small position (List.mem_cons_of_mem _ listed)) fitsBehind
      refine ⟨word, ?_, ?_⟩
      · rw [List.zip_cons_cons, List.foldlM_cons, isNext]
        exact isWord
      · rw [word_eq, next_eq, distance, Int.add_assoc]

end Run

theorem offset_eq_distance (b : HostBuffer e) (i : Index) :
    b.offset i = distance i.toList b.stride.toList := by
  simp only [offset, Index.toList, PerDimension.toList, distance, Int.add_zero, Int.add_assoc]

theorem offset?_eq_some (offsetsFit : b.OffsetsFit extents) (inside : extents.contains i = true)
    (small : extents.count < 2 ^ 63) :
    ∃ word, b.offset? i = some word ∧ word.toInt = b.offset i := by
  have below := Nat.lt_trans (Extents.place_lt_count inside) small
  have fits (closer : List Nat) (isCloser : List.Forall₂ (· ≤ ·) closer i.toList) :
      -2 ^ 63 ≤ distance closer b.stride.toList ∧ distance closer b.stride.toList < 2 ^ 63 := by
    obtain _ | ⟨le0, _ | ⟨le1, _ | ⟨le2, _ | ⟨le3, _ | _⟩⟩⟩⟩ := isCloser
    next j0 j1 j2 j3 =>
    have closerInside : extents.contains ⟨j0, j1, j2, j3⟩ = true := by
      rw [Extents.contains_eq_true_iff] at inside ⊢
      dsimp only
      omega
    have isWord := offsetsFit _ closerInside
    rwa [offset_eq_distance] at isWord
  have startFits (closer : List Nat) (isCloser : List.Forall₂ (· ≤ ·) closer i.toList) :
      -2 ^ 63 ≤ (0 : Int64).toInt + distance closer b.stride.toList ∧
        (0 : Int64).toInt + distance closer b.stride.toList < 2 ^ 63 := by
    rw [Int64.toInt_zero, Int.zero_add]
    exact fits closer isCloser
  obtain ⟨word, isWord, word_eq⟩ := foldlM_advance_eq_some 0
    (fun position listed => Nat.lt_of_le_of_lt (Extents.le_place inside listed) below)
    fun closer isCloser => ⟨fits closer isCloser, startFits closer isCloser⟩
  refine ⟨word, isWord, ?_⟩
  rw [word_eq, offset_eq_distance, Int64.toInt_zero, Int.zero_add]

def InMemory (b : HostBuffer e) (i : Index) : Prop :=
  0 ≤ b.offset i ∧ b.offset i < b.data.size

theorem element_of_inMemory {word : Int64} (isOffset : b.offset? i = some word)
    (word_eq : word.toInt = b.offset i) (inMemory : b.InMemory i) :
    ∃ value, b.data[(b.offset i).toNat]? = some value ∧ b.element i = .ok value := by
  obtain ⟨nonnegative, within⟩ := inMemory
  have stored : (b.offset i).toNat < b.data.size := by omega
  refine ⟨b.data[(b.offset i).toNat], Array.getElem?_eq_getElem stored, ?_⟩
  rw [element, isOffset]
  simp [word_eq, nonnegative, stored]

theorem element_of_outside {word : Int64} (isOffset : b.offset? i = some word)
    (word_eq : word.toInt = b.offset i) (outside : ¬ b.InMemory i) :
    b.element i = .error (.refused (outsideError i (b.offset i))) := by
  have notStored : (if 0 ≤ b.offset i then b.data[(b.offset i).toNat]? else none) = none := by
    split
    · next nonnegative =>
      have past : ¬ b.offset i < b.data.size := fun within => outside ⟨nonnegative, within⟩
      exact Array.getElem?_eq_none (by omega)
    · rfl
  rw [element, isOffset]
  simp only [word_eq, notStored]

section Comparison

variable {test : Nat → Nat → Int64 → Prop} {k want : Nat} {found : Int64} {wants : List Nat}
  {founds : List Int64}

def PassesAll (test : Nat → Nat → Int64 → Prop) (wants : List Nat) (founds : List Int64) : Prop :=
  ∀ k want found, wants[k]? = some want → founds[k]? = some found → test k want found

/-- Dimension `k`, with the extents `want` and `found`, is the first that fails a test. -/
def FailsFirst (test : Nat → Nat → Int64 → Prop) (wants : List Nat) (founds : List Int64)
    (k want : Nat) (found : Int64) : Prop :=
  wants[k]? = some want ∧ founds[k]? = some found ∧ ¬ test k want found ∧
    ∀ j < k, ∀ want found, wants[j]? = some want → founds[j]? = some found → test j want found

theorem PassesAll.cons (first : test 0 want found)
    (rest : PassesAll (fun k => test (k + 1)) wants founds) :
    PassesAll test (want :: wants) (found :: founds) := by
  rintro (_ | k) want' found' isWant isFound
  · cases isWant
    cases isFound
    exact first
  · exact rest k want' found' isWant isFound

theorem FailsFirst.cons {want' : Nat} {found' : Int64} (first : test 0 want' found')
    (rest : FailsFirst (fun k => test (k + 1)) wants founds k want found) :
    FailsFirst test (want' :: wants) (found' :: founds) (k + 1) want found := by
  obtain ⟨isWant, isFound, fails, before⟩ := rest
  refine ⟨isWant, isFound, fails, ?_⟩
  rintro (_ | j) earlier want found isWant isFound
  · cases isWant
    cases isFound
    exact first
  · exact before j (Nat.lt_of_succ_lt_succ earlier) want found isWant isFound

def AgreesAsWord (dimension want : Nat) (found : Int64) : Prop :=
  Int64.ofNat want = found ∨ (0 < dimension ∧ want = 1 ∧ found = 0)

theorem checkExtents_cases (n : Nat) (wants : List Nat) (founds : List Int64) :
    (checkExtents n wants founds = .ok () ∧
        PassesAll (fun k => AgreesAsWord (n + k)) wants founds) ∨
      ∃ k want found, FailsFirst (fun k => AgreesAsWord (n + k)) wants founds k want found ∧
        checkExtents n wants founds = .error (.extentMismatch (n + k) want found.toInt) := by
  induction wants generalizing n founds with
  | nil => exact .inl ⟨rfl, by simp [PassesAll]⟩
  | cons want wants inductionHypothesis =>
    cases founds with
    | nil => exact .inl ⟨rfl, by simp [PassesAll]⟩
    | cons found founds =>
      rw [checkExtents]
      split
      · next agrees =>
        have shift : (fun k => AgreesAsWord (n + 1 + k)) = fun k => AgreesAsWord (n + (k + 1)) := by
          funext k
          rw [Nat.add_assoc, Nat.add_comm 1]
        have following := inductionHypothesis (n + 1) founds
        rw [shift] at following
        obtain ⟨isOk, passes⟩ | ⟨k, want', found', fails, isError⟩ := following
        · exact .inl ⟨isOk, PassesAll.cons agrees passes⟩
        · refine .inr ⟨k + 1, want', found', fails.cons agrees, ?_⟩
          rw [isError, Nat.add_assoc, Nat.add_comm 1]
      · next disagrees =>
        refine .inr ⟨0, want, found, ⟨rfl, rfl, disagrees, ?_⟩, rfl⟩
        intro j earlier
        exact absurd earlier (Nat.not_lt_zero j)

theorem PassesAll.not_failsFirst (passes : PassesAll test wants founds) :
    ¬ FailsFirst test wants founds k want found := by
  rintro ⟨isWant, isFound, fails, _⟩
  exact fails (passes k want found isWant isFound)

theorem FailsFirst.unique {k' want' : Nat} {found' : Int64}
    (left : FailsFirst test wants founds k want found)
    (right : FailsFirst test wants founds k' want' found') :
    k = k' ∧ want = want' ∧ found = found' := by
  obtain ⟨isWant, isFound, fails, before⟩ := left
  obtain ⟨isWant', isFound', fails', before'⟩ := right
  obtain earlier | rfl | later := Nat.lt_trichotomy k k'
  · exact absurd (before' k earlier want found isWant isFound) fails
  · rw [isWant] at isWant'
    rw [isFound] at isFound'
    exact ⟨rfl, Option.some.inj isWant', Option.some.inj isFound'⟩
  · exact absurd (before k' later want' found' isWant' isFound') fails'

theorem FailsFirst.congr {test' : Nat → Nat → Int64 → Prop}
    (same : ∀ k want found, wants[k]? = some want → (test k want found ↔ test' k want found))
    (fails : FailsFirst test wants founds k want found) :
    FailsFirst test' wants founds k want found := by
  obtain ⟨isWant, isFound, fails, before⟩ := fails
  refine ⟨isWant, isFound, fun passes => fails ((same k want found isWant).mpr passes), ?_⟩
  intro j earlier want found isWant isFound
  exact (same j want found isWant).mp (before j earlier want found isWant isFound)

end Comparison

section Agreement

variable {k want : Nat} {found : Int64}

/-- The extents of a dimension agree. Past the first dimension, a single element of the stencil
also agrees with a dimension that the buffer does not use. -/
def AgreesAt (dimension want : Nat) (found : Int64) : Prop :=
  found.toInt = want ∨ (0 < dimension ∧ want = 1 ∧ found = 0)

/-- Extents that disagree are taken for equal words when they differ by whole rounds. -/
theorem agreesAsWord_iff : AgreesAsWord k want found ↔
    AgreesAt k want found ∨ (2 ^ 64 : Int) ∣ want - found.toInt := by
  rw [AgreesAsWord, AgreesAt, int64_ofNat_eq_iff]
  constructor
  · rintro (rounds | unused)
    · exact .inr rounds
    · exact .inl (.inr unused)
  · rintro ((same | unused) | rounds)
    · exact .inl (by rw [same, Int.sub_self]; exact Int.dvd_zero _)
    · exact .inr unused
    · exact .inl rounds

theorem agreesAsWord_iff_of_lt (small : want < 2 ^ 63) :
    AgreesAsWord k want found ↔ AgreesAt k want found := by
  rw [AgreesAsWord, AgreesAt, ← Int64.toInt_inj, Int64.toInt_ofNat_of_lt small, eq_comm]

def Agrees (b : HostBuffer e) (extents : Extents) : Prop :=
  PassesAll AgreesAt extents.toList b.extent.toList

def DiffersFirst (b : HostBuffer e) (extents : Extents) (k want : Nat) (found : Int64) : Prop :=
  FailsFirst AgreesAt extents.toList b.extent.toList k want found

/-- The index is in bounds, its element is outside the memory of the buffer, and no element before
it in the order of storage is. -/
def OutsideFirst (b : HostBuffer e) (extents : Extents) (i : Index) : Prop :=
  extents.contains i = true ∧ ¬ b.InMemory i ∧
    ∀ j, extents.contains j = true → extents.place j < extents.place i → b.InMemory j

end Agreement

section Copy

variable {k want : Nat} {found : Int64}

theorem toStencil_of_compared_error {error : LoweringError}
    (compared : checkExtents 0 extents.toList b.extent.toList = .error error) :
    b.toStencil extents = .error (.refused error) := by
  rw [toStencil, compared]
  rfl

theorem toStencil_of_not_reservable
    (compared : checkExtents 0 extents.toList b.extent.toList = .ok ())
    (tooLarge : ¬ extents.reservable e = true) : b.toStencil extents = .error .overflow := by
  rw [toStencil, compared, Bool.eq_false_iff.mpr tooLarge]
  rfl

theorem toStencil_of_reservable
    (compared : checkExtents 0 extents.toList b.extent.toList = .ok ())
    (reservable : extents.reservable e = true) :
    b.toStencil extents = (do
      let values ← extents.indices.mapM b.element
      Stencil.ofValues extents values) := by
  rw [toStencil, compared, reservable]
  rfl

theorem compare_cases (b : HostBuffer e) (extents : Extents) :
    (checkExtents 0 extents.toList b.extent.toList = .ok () ∧
        PassesAll AgreesAsWord extents.toList b.extent.toList) ∨
      ∃ k want found, FailsFirst AgreesAsWord extents.toList b.extent.toList k want found ∧
        checkExtents 0 extents.toList b.extent.toList =
          .error (.extentMismatch k want found.toInt) := by
  simpa only [Nat.zero_add] using checkExtents_cases 0 extents.toList b.extent.toList

theorem compared_of_agrees (agrees : b.Agrees extents) :
    checkExtents 0 extents.toList b.extent.toList = .ok () := by
  obtain ⟨compared, _⟩ | ⟨k, want, found, ⟨isWant, isFound, fails, _⟩, _⟩ := b.compare_cases extents
  · exact compared
  · exact absurd (agreesAsWord_iff.mpr (.inl (agrees k want found isWant isFound))) fails

/-- The first dimension that disagrees is reported, unless its extents are equal as words. -/
theorem compared_of_differsFirst (differs : b.DiffersFirst extents k want found)
    (noRounds : ¬ (2 ^ 64 : Int) ∣ want - found.toInt) :
    checkExtents 0 extents.toList b.extent.toList =
      .error (.extentMismatch k want found.toInt) := by
  obtain ⟨isWant, isFound, fails, before⟩ := differs
  have asWords : FailsFirst AgreesAsWord extents.toList b.extent.toList k want found := by
    refine ⟨isWant, isFound, ?_, ?_⟩
    · rw [agreesAsWord_iff]
      exact not_or.mpr ⟨fails, noRounds⟩
    · intro j earlier want found isWant isFound
      exact agreesAsWord_iff.mpr (.inl (before j earlier want found isWant isFound))
  obtain ⟨_, passes⟩ | ⟨k', want', found', fails', isError⟩ := b.compare_cases extents
  · exact absurd asWords passes.not_failsFirst
  · obtain ⟨rfl, rfl, rfl⟩ := asWords.unique fails'
    exact isError

theorem count_lt_of_reserved (reserved : extents.count * (e.bits / 8) < 2 ^ 63) :
    extents.count < 2 ^ 63 :=
  Nat.lt_of_le_of_lt (Nat.le_mul_of_pos_right _ e.bytes_pos) reserved

/-- Extents of a stencil that can be reserved are small enough to be compared as words. -/
theorem agreesAsWord_iff_of_reserved
    (reserved : extents.count * (e.bits / 8) < 2 ^ 63) (isWant : extents.toList[k]? = some want) :
    AgreesAsWord k want found ↔ AgreesAt k want found := by
  apply agreesAsWord_iff_of_lt
  exact Nat.lt_of_le_of_lt (Extents.le_count (List.mem_of_getElem? isWant))
    (count_lt_of_reserved reserved)

theorem element_cases (offsetsFit : b.OffsetsFit extents)
    (reserved : extents.count * (e.bits / 8) < 2 ^ 63) (inside : extents.contains i = true) :
    (b.InMemory i ∧ ∃ value, b.data[(b.offset i).toNat]? = some value ∧
        b.element i = .ok value) ∨
      (¬ b.InMemory i ∧ b.element i = .error (.refused (outsideError i (b.offset i)))) := by
  obtain ⟨word, isOffset, word_eq⟩ :=
    offset?_eq_some offsetsFit inside (count_lt_of_reserved reserved)
  by_cases inMemory : b.InMemory i
  · exact .inl ⟨inMemory, element_of_inMemory isOffset word_eq inMemory⟩
  · exact .inr ⟨inMemory, element_of_outside isOffset word_eq inMemory⟩

theorem exists_toStencil (agrees : b.Agrees extents)
    (reserved : extents.count * (e.bits / 8) < 2 ^ 63) {values : List e.Pattern}
    (copied : extents.indices.mapM b.element = .ok values) :
    ∃ s, b.toStencil extents = .ok s ∧ s.extents = extents ∧
      ∀ i, extents.contains i = true → ∃ value, b.element i = .ok value ∧ s.get i = .ok value := by
  have length_eq : values.length = extents.count := by
    rw [← (mapM_eq_ok_iff.mp copied).length_eq, extents.length_indices]
  have fits : extents.count < 2 ^ 64 := Nat.lt_trans (count_lt_of_reserved reserved) (by decide)
  obtain ⟨s, filled, rfl, rfl⟩ := Stencil.exists_ofValues fits length_eq
  refine ⟨s, ?_, rfl, ?_⟩
  · rw [toStencil_of_reservable (compared_of_agrees agrees) (Extents.reservable_iff.mpr reserved),
      copied]
    exact filled
  · intro i inside
    exact exists_common_result copied s.mapM_get_indices (Extents.mem_indices_iff.mpr inside)

/-- What becomes of a copy when the extents agree: the first element outside the memory of the
buffer is reported, or all are copied. -/
theorem toStencil_of_agrees (offsetsFit : b.OffsetsFit extents)
    (reserved : extents.count * (e.bits / 8) < 2 ^ 63) (agrees : b.Agrees extents) :
    (∃ i, b.OutsideFirst extents i ∧
        b.toStencil extents = .error (.refused (outsideError i (b.offset i)))) ∨
      ∃ s, b.toStencil extents = .ok s ∧ s.extents = extents ∧
        ∀ i, extents.contains i = true → b.InMemory i ∧
          ∃ value, s.get i = .ok value ∧ b.data[(b.offset i).toNat]? = some value := by
  have cases (i : Index) (inside : extents.contains i = true) :=
    element_cases offsetsFit reserved inside
  cases copied : extents.indices.mapM b.element with
  | error stop =>
    obtain ⟨before, i, after, split, passed, refused⟩ := mapM_eq_error_iff.mp copied
    have inside : extents.contains i = true := by
      rw [← Extents.mem_indices_iff, split]
      exact List.mem_append_right _ List.mem_cons_self
    obtain ⟨_, value, _, isElement⟩ | ⟨outside, isError⟩ := cases i inside
    · rw [refused] at isElement
      cases isElement
    · rw [refused] at isError
      obtain rfl := Except.error.inj isError
      refine .inl ⟨i, ⟨inside, outside, ?_⟩, ?_⟩
      · intro j jInside smaller
        obtain ⟨inMemory, _⟩ | ⟨_, isError⟩ := cases j jInside
        · exact inMemory
        · obtain ⟨value, isElement⟩ :=
            passed j ((Extents.mem_before_iff split).mpr ⟨jInside, smaller⟩)
          rw [isError] at isElement
          cases isElement
      · rw [toStencil_of_reservable (compared_of_agrees agrees)
          (Extents.reservable_iff.mpr reserved), copied]
        rfl
  | ok values =>
    obtain ⟨s, isStencil, extents_eq, elements⟩ := exists_toStencil agrees reserved copied
    refine .inr ⟨s, isStencil, extents_eq, ?_⟩
    intro i inside
    obtain ⟨value, isElement, isValue⟩ := elements i inside
    obtain ⟨inMemory, value', isData, isElement'⟩ | ⟨_, isError⟩ := cases i inside
    · rw [isElement] at isElement'
      cases isElement'
      exact ⟨inMemory, value, isValue, isData⟩
    · rw [isElement] at isError
      cases isError

/-- A stencil that can be reserved either agrees with the buffer or has its first difference
reported. -/
theorem agrees_or_differs (reserved : extents.count * (e.bits / 8) < 2 ^ 63) :
    b.Agrees extents ∨ ∃ k want found, b.DiffersFirst extents k want found ∧
      b.toStencil extents = .error (.refused (.extentMismatch k want found.toInt)) := by
  have same (k want : Nat) (found : Int64) (isWant : extents.toList[k]? = some want) :
      AgreesAsWord k want found ↔ AgreesAt k want found :=
    agreesAsWord_iff_of_reserved reserved isWant
  obtain ⟨_, passes⟩ | ⟨k, want, found, fails, isError⟩ := b.compare_cases extents
  · refine .inl fun k want found isWant isFound => ?_
    exact (same k want found isWant).mp (passes k want found isWant isFound)
  · exact .inr ⟨k, want, found, fails.congr same, toStencil_of_compared_error isError⟩

theorem OutsideFirst.unique {j : Index} (left : b.OutsideFirst extents i)
    (right : b.OutsideFirst extents j) : i = j := by
  obtain ⟨iInside, iOutside, iBefore⟩ := left
  obtain ⟨jInside, jOutside, jBefore⟩ := right
  obtain smaller | same | larger := Nat.lt_trichotomy (extents.place i) (extents.place j)
  · exact absurd (jBefore i iInside smaller) iOutside
  · exact Extents.place_injective iInside jInside same
  · exact absurd (iBefore j jInside larger) jOutside

theorem not_reported_of_rounds (differs : b.DiffersFirst extents k want found)
    (rounds : (2 ^ 64 : Int) ∣ want - found.toInt) :
    b.toStencil extents ≠ .error (.refused (.extentMismatch k want found.toInt)) := by
  intro reported
  have asWord : AgreesAsWord k want found := agreesAsWord_iff.mpr (.inr rounds)
  obtain ⟨compared, _⟩ | ⟨k', want', found', fails, isError⟩ := b.compare_cases extents
  · have tooLarge : ¬ extents.reservable e = true := by
      rw [Extents.reservable_iff]
      intro reserved
      exact differs.2.2.1 ((agreesAsWord_iff_of_reserved reserved differs.1).mp asWord)
    rw [toStencil_of_not_reservable compared tooLarge] at reported
    cases reported
  · rw [toStencil_of_compared_error isError] at reported
    injection reported with refused
    injection refused with same
    injection same with sameDimension sameWant sameFound
    obtain rfl := Int64.toInt_inj.mp sameFound
    subst sameDimension sameWant
    exact fails.2.2.1 asWord

theorem agrees_and_reserved_of_ok {s : Stencil e} (succeeded : b.toStencil extents = .ok s) :
    b.Agrees extents ∧ extents.count * (e.bits / 8) < 2 ^ 63 := by
  have reserved : extents.count * (e.bits / 8) < 2 ^ 63 := by
    rw [← Extents.reservable_iff]
    obtain ⟨compared, _⟩ | ⟨k, want, found, _, isError⟩ := b.compare_cases extents
    · apply Decidable.byContradiction
      intro tooLarge
      rw [toStencil_of_not_reservable compared tooLarge] at succeeded
      cases succeeded
    · rw [toStencil_of_compared_error isError] at succeeded
      cases succeeded
  obtain agrees | ⟨k, want, found, _, isError⟩ := agrees_or_differs reserved
  · exact ⟨agrees, reserved⟩
  · rw [isError] at succeeded
    cases succeeded

theorem toStencil_eq_error_iff (offsetsFit : b.OffsetsFit extents)
    (reserved : extents.count * (e.bits / 8) < 2 ^ 63) (stop : Stop) :
    b.toStencil extents = .error stop ↔
      (∃ k want found, b.DiffersFirst extents k want found ∧
        stop = .refused (.extentMismatch k want found.toInt)) ∨
      (b.Agrees extents ∧ ∃ i, b.OutsideFirst extents i ∧
        stop = .refused (outsideError i (b.offset i))) := by
  obtain agrees | ⟨k, want, found, differs, isError⟩ := agrees_or_differs reserved
  · have same : ¬ ∃ k want found, b.DiffersFirst extents k want found ∧
        stop = .refused (.extentMismatch k want found.toInt) := by
      rintro ⟨k, want, found, differs, _⟩
      exact agrees.not_failsFirst differs
    rw [or_iff_right same, and_iff_right agrees]
    obtain ⟨i, outside, isError⟩ | ⟨s, isOk, _, elements⟩ :=
      toStencil_of_agrees offsetsFit reserved agrees
    · rw [isError, Except.error.injEq]
      constructor
      · rintro rfl
        exact ⟨i, outside, rfl⟩
      · rintro ⟨j, outside', rfl⟩
        rw [outside.unique outside']
    · rw [isOk]
      constructor
      · intro failed
        cases failed
      · rintro ⟨i, ⟨inside, outside, _⟩, _⟩
        exact absurd (elements i inside).1 outside
  · have noAgreement : ¬ b.Agrees extents := fun agrees => agrees.not_failsFirst differs
    rw [isError, Except.error.injEq, or_iff_left fun outside => noAgreement outside.1]
    constructor
    · rintro rfl
      exact ⟨k, want, found, differs, rfl⟩
    · rintro ⟨k', want', found', differs', rfl⟩
      obtain ⟨rfl, rfl, rfl⟩ := differs.unique differs'
      rfl

/-- A copy succeeds exactly when the extents agree, every element that the stencil needs lies in the
memory of the buffer, and memory for the stencil can be reserved; each element is then the one at
its offset. For a stencil that can be reserved, a copy that fails reports the first dimension that
disagrees or, where all agree, the first element in the order of storage that lies outside. A
stencil that cannot be reserved stops a copy with agreeing extents, and of extents that disagree the
first difference is reported unless it is a multiple of `2 ^ 64`. -/
theorem copy_exact (offsetsFit : b.OffsetsFit extents) :
    ((∃ s, b.toStencil extents = .ok s) ↔
        b.Agrees extents ∧ (∀ i, extents.contains i = true → b.InMemory i) ∧
          extents.count * (e.bits / 8) < 2 ^ 63) ∧
      (∀ s, b.toStencil extents = .ok s → s.extents = extents ∧
        ∀ i, extents.contains i = true →
          ∃ value, s.get i = .ok value ∧ b.data[(b.offset i).toNat]? = some value) ∧
      (extents.count * (e.bits / 8) < 2 ^ 63 → ∀ stop,
        b.toStencil extents = .error stop ↔
          (∃ k want found, b.DiffersFirst extents k want found ∧
            stop = .refused (.extentMismatch k want found.toInt)) ∨
          (b.Agrees extents ∧ ∃ i, b.OutsideFirst extents i ∧
            stop = .refused (outsideError i (b.offset i)))) ∧
      (¬ extents.count * (e.bits / 8) < 2 ^ 63 → b.Agrees extents →
        b.toStencil extents = .error .overflow) ∧
      ∀ k want found, b.DiffersFirst extents k want found →
        (b.toStencil extents = .error (.refused (.extentMismatch k want found.toInt)) ↔
          ¬ (2 ^ 64 : Int) ∣ want - found.toInt) := by
  refine ⟨⟨?_, ?_⟩, ?_, toStencil_eq_error_iff offsetsFit, ?_, ?_⟩
  · rintro ⟨s, succeeded⟩
    obtain ⟨agrees, reserved⟩ := agrees_and_reserved_of_ok succeeded
    obtain ⟨i, _, isError⟩ | ⟨_, _, _, elements⟩ :=
      toStencil_of_agrees offsetsFit reserved agrees
    · rw [succeeded] at isError
      cases isError
    · exact ⟨agrees, fun i inside => (elements i inside).1, reserved⟩
  · rintro ⟨agrees, inMemory, reserved⟩
    obtain ⟨i, ⟨inside, outside, _⟩, _⟩ | ⟨s, isOk, _⟩ :=
      toStencil_of_agrees offsetsFit reserved agrees
    · exact absurd (inMemory i inside) outside
    · exact ⟨s, isOk⟩
  · intro s succeeded
    obtain ⟨agrees, reserved⟩ := agrees_and_reserved_of_ok succeeded
    obtain ⟨i, _, isError⟩ | ⟨s', isOk, extents_eq, elements⟩ :=
      toStencil_of_agrees offsetsFit reserved agrees
    · rw [succeeded] at isError
      cases isError
    · rw [succeeded] at isOk
      cases isOk
      exact ⟨extents_eq, fun i inside => (elements i inside).2⟩
  · intro tooLarge agrees
    rw [← Extents.reservable_iff] at tooLarge
    exact toStencil_of_not_reservable (compared_of_agrees agrees) tooLarge
  · intro k want found differs
    constructor
    · intro reported rounds
      exact not_reported_of_rounds differs rounds reported
    · intro noRounds
      exact toStencil_of_compared_error (compared_of_differsFirst differs noRounds)

/-- Two rows of two elements, the second one element in front of the first. -/
def backwardRows : HostBuffer .uint16 := ⟨#[1, 2, 3, 4], ⟨2, 2, 0, 0⟩, ⟨1, -1, 0, 0⟩⟩

/-- The second row starts in front of the memory, and its first element is reported. -/
theorem copy_exact_backwardRows :
    ∃ extents, Extents.ofList [2, 2] = .ok extents ∧ backwardRows.OffsetsFit extents ∧
      backwardRows.toStencil extents = .error (.refused (outsideError ⟨0, 1, 0, 0⟩ (-1))) ∧
      backwardRows.Agrees extents ∧ ∃ i, backwardRows.OutsideFirst extents i ∧
        outsideError ⟨0, 1, 0, 0⟩ (-1) = outsideError i (backwardRows.offset i) := by
  have offsetsFit : backwardRows.OffsetsFit ⟨2, 2, 1, 1, by decide⟩ := by
    intro i inside
    obtain ⟨inside0, inside1, _, _⟩ := Extents.contains_eq_true_iff.mp inside
    change i.i0 < 2 at inside0
    change i.i1 < 2 at inside1
    have minusOne : Int64.toInt (-1) = -1 := rfl
    simp only [offset, backwardRows, Int64.toInt_one, Int64.toInt_zero, minusOne]
    omega
  have reported : backwardRows.toStencil ⟨2, 2, 1, 1, by decide⟩ =
      .error (.refused (outsideError ⟨0, 1, 0, 0⟩ (-1))) := rfl
  obtain ⟨_, _, errors, _⟩ := copy_exact offsetsFit
  obtain ⟨k, want, found, _, isMismatch⟩ | ⟨agrees, i, outside, isOutside⟩ :=
    (errors (by decide) _).mp reported
  · cases isMismatch
  · exact ⟨_, rfl, offsetsFit, reported, agrees, i, outside, Stop.refused.inj isOutside⟩

def negativeExtent : HostBuffer .uint8 := ⟨#[], ⟨-1, 0, 0, 0⟩, ⟨0, 0, 0, 0⟩⟩

/-- As a word, the largest extent is minus one: the two are not reported as different, and the copy
stops at the reservation of memory. -/
theorem negativeExtent_not_reported :
    ∃ extents, Extents.ofList [18446744073709551615] = .ok extents ∧
      negativeExtent.OffsetsFit extents ∧
      negativeExtent.DiffersFirst extents 0 18446744073709551615 (-1) ∧
      negativeExtent.toStencil extents = .error .overflow := by
  refine ⟨_, rfl, ?_, ⟨rfl, rfl, ?_, ?_⟩, rfl⟩
  · intro i _
    simp [offset, negativeExtent]
  · rw [AgreesAt]
    decide
  · intro j earlier
    exact absurd earlier (Nat.not_lt_zero j)

end Copy

end HostBuffer

end StreamSynth
