import StreamSynth.Proofs.SizeProduct

/-!
# Constants are folded

An expression of constants, arithmetic and conversions folds to its value as long as words hold the
values of all its parts. Overflow, division by zero and the one quotient that is no word are the
only ways to be left with something that is not a constant. So a size or an extent that is constant
is always found to be so.
-/

namespace StreamSynth

namespace Expr

inductive Arithmetic (allowed : ScalarType → Prop) : Expr → Prop
  | int {value t} : Arithmetic allowed (int value t)
  | binary {op a b} : op.isLogical = false → Arithmetic allowed a → Arithmetic allowed b →
      Arithmetic allowed (binary op a b)
  | cast {t arg} : allowed t → Arithmetic allowed arg → Arithmetic allowed (cast t arg)

inductive PartOf (part : Expr) : Expr → Prop
  | self : PartOf part part
  | left {op a b} : PartOf part a → PartOf part (binary op a b)
  | right {op a b} : PartOf part b → PartOf part (binary op a b)
  | operand {t arg} : PartOf part arg → PartOf part (cast t arg)

namespace PartOf

variable {part a b arg : Expr} {op : BinaryOp} {t : ScalarType}

theorem int_iff {value : Int64} : part.PartOf (.int value t) ↔ part = .int value t := by
  constructor
  · rintro ⟨⟩
    rfl
  · rintro rfl
    exact self

theorem binary_iff : part.PartOf (.binary op a b) ↔
    part = .binary op a b ∨ part.PartOf a ∨ part.PartOf b := by
  constructor
  · intro isPart
    cases isPart with
    | self => exact .inl rfl
    | left inLeft => exact .inr (.inl inLeft)
    | right inRight => exact .inr (.inr inRight)
  · rintro (rfl | inLeft | inRight)
    · exact self
    · exact left inLeft
    · exact right inRight

theorem cast_iff : part.PartOf (.cast t arg) ↔ part = .cast t arg ∨ part.PartOf arg := by
  constructor
  · intro isPart
    cases isPart with
    | self => exact .inl rfl
    | operand inOperand => exact .inr inOperand
  · rintro (rfl | inOperand)
    · exact self
    · exact operand inOperand

end PartOf

end Expr

section Folding

variable {x y word : Int64}

theorem Folded.division_of_result {result : Int → Int → Int} (nonzero : y.toInt ≠ 0)
    (inRange : ¬ (x = Int64.minValue ∧ y = -1)) (isResult : result x.toInt y.toInt = word.toInt) :
    division x y result = .value word := by
  have divides : y ≠ 0 := by
    rintro rfl
    exact nonzero rfl
  have isWord : int64? (x.toInt / y.toInt) ≠ none := by
    rwa [ne_eq, int64?_ediv_eq_none_iff divides]
  rw [division, if_neg divides, if_neg (by simpa using isWord), checked_eq_value_iff, isResult]

/-- Arithmetic on constants folds if the result is a word, but for the quotient that is none. -/
theorem BinaryOp.fold_of_result {op : BinaryOp} (arithmetic : op.isLogical = false)
    (inRange : op = .div ∨ op = .mod → ¬ (x = Int64.minValue ∧ y = -1))
    (isResult : op.result? x.toInt y.toInt = some word.toInt) : op.fold x y = .value word := by
  cases op with
  | div =>
    rw [result?, Option.ite_none_left_eq_some, Option.some.injEq] at isResult
    exact Folded.division_of_result isResult.1 (inRange (.inl rfl)) isResult.2
  | mod =>
    rw [result?, Option.ite_none_left_eq_some, Option.some.injEq] at isResult
    exact Folded.division_of_result isResult.1 (inRange (.inr rfl)) isResult.2
  | add => exact Folded.checked_eq_value_iff.mpr (Option.some.inj isResult).symm
  | sub => exact Folded.checked_eq_value_iff.mpr (Option.some.inj isResult).symm
  | mul => exact Folded.checked_eq_value_iff.mpr (Option.some.inj isResult).symm
  | min => exact Folded.checked_eq_value_iff.mpr (Option.some.inj isResult).symm
  | max => exact Folded.checked_eq_value_iff.mpr (Option.some.inj isResult).symm
  | _ => cases arithmetic

end Folding

namespace Expr

theorem simplifyBinary_of_fold {op : BinaryOp} {x y word : Int64} {s t : ScalarType}
    (folds : op.fold x y = .value word) :
    ∃ wider, simplifyBinary op (int x s) (int y t) = some (int word wider) :=
  ⟨widerType (int x s) (int y t), by simp [simplifyBinary, int?, folds]⟩

theorem simplifyCast_of_isInteger {t s : ScalarType} (isInteger : t.kind = .int ∨ t.kind = .uint)
    (word : Int64) :
    simplifyCast t (int word s) = int (Int64.ofInt (t.wrap word.toInt)) t := by
  have notFloat : (t.isFloat || t.isHandle) = false := by
    rcases isInteger with isInt | isUint
    · simp [ScalarType.isFloat, ScalarType.isHandle, isInt]
    · simp [ScalarType.isFloat, ScalarType.isHandle, isUint]
  simp [simplifyCast, notFloat]

end Expr

theorem ScalarType.isInteger_of_isExact {t : ScalarType} (exact : t.isExact = true) :
    t.kind = .int ∨ t.kind = .uint := by
  obtain ⟨-, ⟨isInt, -⟩ | ⟨isUint, -⟩⟩ := isExact_iff.mp exact
  · exact .inl isInt
  · exact .inr isUint

namespace Expr

variable {meaning : Interpretation}

/-- The value of every part is a word, and no part divides the least word by minus one. -/
structure Representable (meaning : Interpretation) (e : Expr) : Prop where
  fits : ∀ part : Expr, part.PartOf e → ∃ word : Int64, part.eval meaning = some word.toInt
  divides : ∀ op a b, (binary op a b).PartOf e → op = .div ∨ op = .mod →
    ¬ (a.eval meaning = some Int64.minValue.toInt ∧ b.eval meaning = some (-1))

theorem Representable.of_part {e arg : Expr} (representable : e.Representable meaning)
    (parts : ∀ part : Expr, part.PartOf arg → part.PartOf e) : arg.Representable meaning where
  fits part isPart := representable.fits part (parts part isPart)
  divides op a b isPart := representable.divides op a b (parts _ isPart)

/-- An arithmetic expression simplifies to the constant that is its value. -/
theorem Arithmetic.simplify_eq_int {e : Expr} (arithmetic : e.Arithmetic (·.isExact = true))
    (representable : e.Representable meaning) :
    ∃ word t, e.simplify = some (.int word t) ∧ e.eval meaning = some word.toInt := by
  induction arithmetic with
  | @int value t => exact ⟨value, t, rfl, rfl⟩
  | @binary op a b isArithmetic _ _ left right =>
    obtain ⟨x, s, leftFolds, leftValue⟩ := left (representable.of_part fun _ => .left)
    obtain ⟨y, t, rightFolds, rightValue⟩ := right (representable.of_part fun _ => .right)
    obtain ⟨word, isWord⟩ := representable.fits _ .self
    have isResult : op.result? x.toInt y.toInt = some word.toInt := by
      simpa [eval, leftValue, rightValue] using isWord
    have inRange : op = .div ∨ op = .mod → ¬ (x = Int64.minValue ∧ y = -1) := by
      rintro divides ⟨rfl, rfl⟩
      exact representable.divides op a b .self divides ⟨leftValue, rightValue⟩
    obtain ⟨wider, folds⟩ := simplifyBinary_of_fold (s := s) (t := t)
      (BinaryOp.fold_of_result isArithmetic inRange isResult)
    exact ⟨word, wider, by simp [simplify, leftFolds, rightFolds, folds], isWord⟩
  | @cast t arg exact _ operand =>
    obtain ⟨x, s, folds, value⟩ := operand (representable.of_part fun _ => .operand)
    obtain ⟨word, isWord⟩ := representable.fits _ .self
    have converts : t.convert? x.toInt = some word.toInt := by simpa [eval, value] using isWord
    have isConversion : Int64.ofInt (t.wrap x.toInt) = word :=
      Int64.toInt_inj.mp (ScalarType.convert?_word x converts)
    refine ⟨word, t, ?_, isWord⟩
    simp [simplify, folds, simplifyCast_of_isInteger (ScalarType.isInteger_of_isExact exact),
      isConversion]

/-- Where all parts are representable, the value of an arithmetic expression is found. It is then
an extent of a stencil if it is positive, and the constant size of an array whose extents it
multiplies. -/
theorem constInt?_complete {e : Expr} (arithmetic : e.Arithmetic (·.isExact = true))
    (representable : e.Representable meaning) :
    ∃ word, e.constInt? = some word ∧ e.eval meaning = some word.toInt ∧
      (1 ≤ word.toInt → ∀ done min rest, StencilType.extentsOf done (⟨min, e⟩ :: rest) =
        StencilType.extentsOf (done ++ [word.toInt.toNat]) rest) ∧
      ∀ extents, wholeProduct extents = e → ∃ t, product extents = some (int word t) := by
  obtain ⟨word, t, folds, value⟩ := arithmetic.simplify_eq_int representable
  refine ⟨word, by simp [constInt?, folds, int?], value, ?_, ?_⟩
  · intro positive done min rest
    rw [StencilType.extentsOf, folds]
    exact if_neg (by omega)
  · rintro extents rfl
    exact ⟨t, by rw [product_eq_simplify_wholeProduct, folds]⟩

/-- An array of `2` by `4` elements: a conversion drops the high bit of `258`, and the quotient of
two negative constants is rounded so that the remainder is not negative. -/
theorem constInt?_complete_reducedExtents :
    let reduced : Expr := .cast (.uint 8) (.ofInt 258)
    let quotient : Expr := .binary .div (.ofInt (-7)) (.ofInt (-2))
    let size := wholeProduct [reduced, quotient]
    size.Arithmetic (·.isExact = true) ∧ size.Representable counting ∧ size.constInt? = some 8 ∧
      StencilType.extentsOf [] [⟨.ofInt 0, size⟩] = .ok [8] ∧
      ∃ t, product [reduced, quotient] = some (int 8 t) := by
  intro reduced quotient size
  have arithmetic : size.Arithmetic (·.isExact = true) :=
    .binary rfl (.binary rfl .int (.cast (by decide) .int)) (.binary rfl .int .int)
  have representable : size.Representable counting := by
    constructor
    · simp only [size, reduced, quotient, wholeProduct, List.foldl, ofInt, PartOf.binary_iff,
        PartOf.cast_iff, PartOf.int_iff]
      rintro part (rfl | (rfl | rfl | rfl | rfl) | rfl | rfl | rfl)
      · exact ⟨8, rfl⟩
      · exact ⟨2, rfl⟩
      · exact ⟨1, rfl⟩
      · exact ⟨2, rfl⟩
      · exact ⟨258, rfl⟩
      · exact ⟨4, rfl⟩
      · exact ⟨-7, rfl⟩
      · exact ⟨-2, rfl⟩
    · simp only [size, reduced, quotient, wholeProduct, List.foldl, ofInt, PartOf.binary_iff,
        PartOf.cast_iff, PartOf.int_iff, binary.injEq, reduceCtorEq, or_false]
      rintro op a b (⟨rfl, -, -⟩ | ⟨rfl, -, -⟩ | ⟨rfl, rfl, rfl⟩) divides ⟨isLeast, -⟩
      · simp at divides
      · simp at divides
      · simp [eval] at isLeast
  obtain ⟨word, isConstant, -, extent, array⟩ := constInt?_complete arithmetic representable
  obtain rfl : word = 8 := Option.some.inj (isConstant.symm.trans rfl)
  exact ⟨arithmetic, representable, isConstant, extent (by decide) [] (.ofInt 0) [],
    array [reduced, quotient] rfl⟩

end Expr

end StreamSynth
