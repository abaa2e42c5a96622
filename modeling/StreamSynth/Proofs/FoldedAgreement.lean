import StreamSynth.Proofs.GeneratedValue

/-!
# Folded constants and the generated code

A constant may be folded in one place and printed unfolded in another. The two are the same number
unless a quotient or a remainder is rounded: folding leaves no negative remainder, and the generated
code rounds towards zero. They part exactly where the dividend is negative and the divisor does not
divide it.
-/

namespace StreamSynth

namespace Expr

def FoldsAsGenerated (e : Expr) : Prop :=
  ∃ word, e.constInt? = some word ∧ e.generatedValue? = some word.toInt

/-- A quotient or remainder of a negative dividend that the divisor does not divide. -/
inductive RoundsApart : Expr → Prop
  | mk {op a b x y} : op = .div ∨ op = .mod → a.generatedValue? = some x →
      b.generatedValue? = some y → x < 0 → ¬ y ∣ x → RoundsApart (binary op a b)

/-- The values of all parts in the generated code are words. In particular nothing is divided by
zero. -/
def GeneratedFits (e : Expr) : Prop :=
  ∀ part : Expr, part.PartOf e → ∃ word : Int64, part.generatedValue? = some word.toInt

end Expr

section Rounding

variable {op : BinaryOp} {x y : Int}

theorem BinaryOp.generated?_eq_result? (exact : op = .div ∨ op = .mod → 0 ≤ x ∨ y ∣ x) :
    op.generated? x y = op.result? x y := by
  cases op with
  | div => simp [generated?, result?, Int.tdiv_eq_ediv, exact (.inl rfl)]
  | mod => simp [generated?, result?, Int.tmod_eq_emod, exact (.inr rfl)]
  | _ => rfl

theorem BinaryOp.generated?_ne_result? (divides : op = .div ∨ op = .mod) (nonzero : y ≠ 0)
    (negative : x < 0) (inexact : ¬ y ∣ x) : op.generated? x y ≠ op.result? x y := by
  have rounds : ¬ (0 ≤ x ∨ y ∣ x) := by
    rintro (nonnegative | multiple)
    · omega
    · exact inexact multiple
  rcases divides with rfl | rfl
  · have sign : y.sign ≠ 0 := by rwa [ne_eq, Int.sign_eq_zero_iff_zero]
    simp only [generated?, result?, if_neg nonzero, Int.tdiv_eq_ediv, if_neg rounds, ne_eq,
      Option.some.injEq]
    omega
  · simp only [generated?, result?, if_neg nonzero, Int.tmod_eq_emod, if_neg rounds, ne_eq,
      Option.some.injEq]
    omega

/-- Where one of the two has a value, both have one. -/
theorem BinaryOp.exists_result? (divides : op = .div ∨ op = .mod) {v : Int}
    (isResult : op.generated? x y = some v) : y ≠ 0 ∧ ∃ w, op.result? x y = some w := by
  have nonzero : y ≠ 0 := by
    rintro rfl
    rcases divides with rfl | rfl
    · cases isResult
    · cases isResult
  refine ⟨nonzero, ?_⟩
  rcases divides with rfl | rfl
  · exact ⟨x / y, if_neg nonzero⟩
  · exact ⟨x % y, if_neg nonzero⟩

end Rounding

section Conversion

variable {t : ScalarType}

/-- Of the named integer types, words hold all integers of every one but the widest unsigned. -/
theorem ScalarType.IsNamedInteger.isExact_or (isInteger : t.IsNamedInteger) :
    t.isExact = true ∨ t = .uint 64 := by
  have every : ∀ row ∈ Generated.conversions, row.2.isExact = true ∨ row.2 = .uint 64 := by decide
  exact every _ isInteger.mem_conversions

theorem ScalarType.convert?_eq_represent (exact : t.isExact = true) (value : Int) :
    t.convert? value = some (t.represent value) := by
  rw [convert?, represent, if_pos exact]
  split <;> rfl

/-- Folding a conversion gives its value in the generated code, if that is a word. -/
theorem ScalarType.IsNamedInteger.wrap_eq (isInteger : t.IsNamedInteger) {word result : Int64}
    (isResult : t.represent word.toInt = result.toInt) :
    Int64.ofInt (t.wrap word.toInt) = result := by
  rcases isInteger.isExact_or with exact | rfl
  · apply Int64.toInt_inj.mp
    rw [convert?_word word (convert?_eq_represent exact _), isResult]
  · have kept : (ScalarType.uint 64).wrap word.toInt = word.toInt := by rfl
    have reduced : word.toInt % 2 ^ 64 = result.toInt := by
      rw [← isResult]
      change _ = 0 + (word.toInt - 0) % ((2 ^ 64 : Nat) : Int)
      simp
    have low := word.le_toInt
    have high := word.toInt_lt
    have resultHigh := result.toInt_lt
    rw [kept, Int64.ofInt_toInt, ← Int64.toInt_inj]
    omega

end Conversion

namespace Expr

variable {e a b part : Expr}

theorem PartOf.trans (inner : part.PartOf a) (outer : a.PartOf e) : part.PartOf e := by
  induction outer with
  | self => exact inner
  | left _ inLeft => exact .left inLeft
  | right _ inRight => exact .right inRight
  | operand _ inOperand => exact .operand inOperand

theorem PartOf.arithmetic {allowed : ScalarType → Prop} (isPart : part.PartOf e)
    (arithmetic : e.Arithmetic allowed) : part.Arithmetic allowed := by
  induction isPart with
  | self => exact arithmetic
  | left _ inLeft =>
    cases arithmetic with
    | binary _ left _ => exact inLeft left
  | right _ inRight =>
    cases arithmetic with
    | binary _ _ right => exact inRight right
  | operand _ inOperand =>
    cases arithmetic with
    | cast _ operand => exact inOperand operand

theorem PartOf.simplify_eq_none (isPart : part.PartOf e) (fails : part.simplify = none) :
    e.simplify = none := by
  induction isPart with
  | self => exact fails
  | left _ inLeft => simp [simplify, inLeft]
  | right _ inRight => simp [simplify, inRight]
  | operand _ inOperand => simp [simplify, inOperand]

/-- If no quotient is rounded apart, folding gives the value of the printed text. -/
theorem Arithmetic.simplify_eq_generated (arithmetic : e.Arithmetic ScalarType.IsNamedInteger)
    (fits : e.GeneratedFits) (folds : e.simplify ≠ none)
    (exact : ∀ part : Expr, part.PartOf e → ¬ part.RoundsApart) :
    ∃ word t, e.simplify = some (.int word t) ∧ e.generatedValue? = some word.toInt := by
  induction arithmetic with
  | @int value t => exact ⟨value, t, rfl, generatedValue?_int value t⟩
  | @binary op a b isArithmetic leftArithmetic rightArithmetic left right =>
    obtain ⟨x, s, leftFolds, leftValue⟩ := left (fun _ isPart => fits _ isPart.left)
      (fun fails => folds (PartOf.left .self |>.simplify_eq_none fails))
      fun _ isPart => exact _ isPart.left
    obtain ⟨y, t, rightFolds, rightValue⟩ := right (fun _ isPart => fits _ isPart.right)
      (fun fails => folds (PartOf.right .self |>.simplify_eq_none fails))
      fun _ isPart => exact _ isPart.right
    obtain ⟨word, isWord⟩ := fits _ .self
    have generated : op.generated? x.toInt y.toInt = some word.toInt := by
      rw [← isWord, generatedValue?_binary isArithmetic leftArithmetic rightArithmetic, leftValue,
        rightValue]
      rfl
    have isExact : op = .div ∨ op = .mod → 0 ≤ x.toInt ∨ y.toInt ∣ x.toInt := by
      intro divides
      by_cases multiple : y.toInt ∣ x.toInt
      · exact .inr multiple
      · refine .inl (Int.not_lt.mp fun negative => ?_)
        exact exact _ .self (.mk divides leftValue rightValue negative multiple)
    have isResult : op.result? x.toInt y.toInt = some word.toInt := by
      rw [← BinaryOp.generated?_eq_result? isExact, generated]
    have inRange : op = .div ∨ op = .mod → ¬ (x = Int64.minValue ∧ y = -1) := by
      rintro divides ⟨rfl, rfl⟩
      have fails := simplifyBinary_eq_none_iff.mpr
        ⟨divides, (rfl : (Expr.int Int64.minValue s).int? = _), (rfl : (Expr.int (-1) t).int? = _)⟩
      exact folds (by simp [simplify, leftFolds, rightFolds, fails])
    obtain ⟨wider, isFolded⟩ := simplifyBinary_of_fold (s := s) (t := t)
      (BinaryOp.fold_of_result isArithmetic inRange isResult)
    exact ⟨word, wider, by simp [simplify, leftFolds, rightFolds, isFolded], isWord⟩
  | @cast t arg isInteger argArithmetic operand =>
    obtain ⟨x, s, argFolds, argValue⟩ := operand (fun _ isPart => fits _ isPart.operand)
      (fun fails => folds (PartOf.operand .self |>.simplify_eq_none fails))
      fun _ isPart => exact _ isPart.operand
    obtain ⟨word, isWord⟩ := fits _ .self
    have converts : t.represent x.toInt = word.toInt := by
      rw [generatedValue?_cast isInteger argArithmetic, argValue] at isWord
      exact Option.some.inj isWord
    refine ⟨word, t, ?_, isWord⟩
    simp [simplify, argFolds, simplifyCast_of_isInteger isInteger.2, isInteger.wrap_eq converts]

/-- An operation on constants that folds has the exact result. -/
theorem constInt?_binary (meaning : Interpretation) {op : BinaryOp} {x y word : Int64} {v : Int}
    (left : a.constInt? = some x) (right : b.constInt? = some y)
    (whole : (binary op a b).constInt? = some word)
    (isResult : op.result? x.toInt y.toInt = some v) : word.toInt = v := by
  obtain ⟨a', leftFolds, leftInt⟩ := constInt?_eq_some_iff.mp left
  obtain ⟨b', rightFolds, rightInt⟩ := constInt?_eq_some_iff.mp right
  obtain ⟨result, wholeFolds, isWord⟩ := constInt?_eq_some_iff.mp whole
  have isSimplified : simplifyBinary op a' b' = some result := by
    simpa [simplify, leftFolds, rightFolds] using wholeFolds
  have evaluates : (binary op a' b').eval meaning = some v :=
    eval_binary_eq_some_iff.mpr
      ⟨_, _, eval_of_int? meaning leftInt, eval_of_int? meaning rightInt, isResult⟩
  simpa [eval_of_int? meaning isWord] using eval_simplifyBinary isSimplified evaluates

/-- An arithmetic expression that folds does so to the value of its printed text, and all its parts
do, exactly if none of them is a quotient or remainder that is rounded apart. -/
theorem folds_as_generated_iff (arithmetic : e.Arithmetic ScalarType.IsNamedInteger)
    (fits : e.GeneratedFits) {n : Int64} (isConstant : e.constInt? = some n) :
    (∀ part : Expr, part.PartOf e → part.FoldsAsGenerated) ↔
      ∀ part : Expr, part.PartOf e → ¬ part.RoundsApart := by
  constructor
  · intro agree part isPart roundsApart
    cases roundsApart with
    | @mk op a b x y divides leftValue rightValue negative inexact =>
      obtain ⟨x', leftFolds, leftGenerated⟩ := agree a (PartOf.trans (.left .self) isPart)
      obtain ⟨y', rightFolds, rightGenerated⟩ := agree b (PartOf.trans (.right .self) isPart)
      obtain ⟨word, folds, generated⟩ := agree _ isPart
      obtain rfl : x'.toInt = x := Option.some.inj (leftGenerated.symm.trans leftValue)
      obtain rfl : y'.toInt = y := Option.some.inj (rightGenerated.symm.trans rightValue)
      cases isPart.arithmetic arithmetic with
      | binary isArithmetic left right =>
        have isGenerated : op.generated? x'.toInt y'.toInt = some word.toInt := by
          rw [← generated, generatedValue?_binary isArithmetic left right, leftGenerated,
            rightGenerated]
          rfl
        obtain ⟨nonzero, v, isResult⟩ := BinaryOp.exists_result? divides isGenerated
        have isValue : word.toInt = v :=
          constInt?_binary default leftFolds rightFolds folds isResult
        apply BinaryOp.generated?_ne_result? divides nonzero negative inexact
        rw [isGenerated, isResult, isValue]
  · intro exact part isPart
    have folds : e.simplify ≠ none := by
      intro fails
      rw [constInt?, fails] at isConstant
      cases isConstant
    obtain ⟨word, t, isFolded, generated⟩ := (isPart.arithmetic arithmetic).simplify_eq_generated
      (fun inner isInner => fits inner (isInner.trans isPart))
      (fun fails => folds (isPart.simplify_eq_none fails))
      fun inner isInner => exact inner (isInner.trans isPart)
    exact ⟨word, by simp [constInt?, isFolded, int?], generated⟩

/-- A quotient of a negative dividend that is exact, and a remainder by a negative divisor. -/
theorem folds_as_generated_iff_exactQuotient :
    let quotient : Expr := .binary .div (.ofInt (-8)) (.ofInt 2)
    let remainder : Expr := .binary .mod (.cast (.uint 8) (.ofInt 300)) (.ofInt (-7))
    let sum : Expr := .binary .add quotient remainder
    sum.Arithmetic ScalarType.IsNamedInteger ∧ sum.GeneratedFits ∧ sum.constInt? = some (-2) ∧
      sum.print = .ok "((-8 / 2) + (((uint8_t)(300)) % -7))" ∧
      Generated.value? "((-8 / 2) + (((uint8_t)(300)) % -7))" = some (-2) ∧
      ∀ part : Expr, part.PartOf sum → part.FoldsAsGenerated := by
  intro quotient remainder sum
  have arithmetic : sum.Arithmetic ScalarType.IsNamedInteger :=
    .binary rfl (.binary rfl .int .int)
      (.binary rfl (.cast ⟨⟨"uint8", rfl⟩, .inr rfl⟩ .int) .int)
  have converted : (Expr.cast (.uint 8) (.int 300 .default)).generatedValue? = some 44 := by
    decide +kernel
  have fits : sum.GeneratedFits := by
    intro part
    simp only [sum, quotient, remainder, ofInt, PartOf.binary_iff, PartOf.cast_iff, PartOf.int_iff]
    rintro (rfl | (rfl | rfl | rfl) | rfl | (rfl | rfl) | rfl)
    · exact ⟨-2, by decide +kernel⟩
    · exact ⟨-4, by decide +kernel⟩
    · exact ⟨-8, generatedValue?_int _ _⟩
    · exact ⟨2, generatedValue?_int _ _⟩
    · exact ⟨2, by decide +kernel⟩
    · exact ⟨44, converted⟩
    · exact ⟨300, generatedValue?_int _ _⟩
    · exact ⟨-7, generatedValue?_int _ _⟩
  have exact : ∀ part : Expr, part.PartOf sum → ¬ part.RoundsApart := by
    intro part
    simp only [sum, quotient, remainder, ofInt, PartOf.binary_iff, PartOf.cast_iff, PartOf.int_iff]
    rintro (rfl | (rfl | rfl | rfl) | rfl | (rfl | rfl) | rfl)
      ⟨divides, left, right, negative, inexact⟩
    · simp at divides
    · rw [generatedValue?_int] at left right
      cases left
      cases right
      exact inexact (by decide)
    · rw [converted] at left
      cases left
      cases negative
  have isConstant : sum.constInt? = some (-2) := by rfl
  exact ⟨arithmetic, fits, isConstant, rfl, by decide +kernel,
    (folds_as_generated_iff arithmetic fits isConstant).mpr exact⟩

/-- Seven halves below zero fold to minus four, and the generated code makes them minus three. -/
theorem quotient_folds_apart :
    let quotient : Expr := .binary .div (.ofInt (-7)) (.ofInt 2)
    quotient.Arithmetic ScalarType.IsNamedInteger ∧ quotient.GeneratedFits ∧
      quotient.constInt? = some (-4) ∧ quotient.print = .ok "(-7 / 2)" ∧
      Generated.value? "(-7 / 2)" = some (-3) := by
  intro quotient
  refine ⟨.binary rfl .int .int, ?_, rfl, rfl, by decide +kernel⟩
  intro part isPart
  simp only [quotient, ofInt, PartOf.binary_iff, PartOf.int_iff] at isPart
  rcases isPart with rfl | rfl | rfl
  · exact ⟨-3, by decide +kernel⟩
  · exact ⟨-7, generatedValue?_int _ _⟩
  · exact ⟨2, generatedValue?_int _ _⟩

end Expr

end StreamSynth
