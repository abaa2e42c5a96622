import StreamSynth.Expr.Simplify

/-!
# Expressions that cannot be simplified

Folding fails on one division only, that of the least word by minus one, and fails for every
expression that contains it.
-/

namespace StreamSynth

section Words

variable {x y : Int64}

theorem int64?_eq_none_iff {value : Int} : int64? value = none ↔
    value < Int64.minValue.toInt ∨ Int64.maxValue.toInt < value := by
  unfold int64?
  split
  · next fits =>
    simp only [reduceCtorEq, false_iff]
    omega
  · next outside =>
    simp only [true_iff]
    omega

/-- A quotient is no larger than the dividend, so only one can be out of range. -/
theorem int64?_ediv_eq_none_iff (nonzero : y ≠ 0) :
    int64? (x.toInt / y.toInt) = none ↔ x = Int64.minValue ∧ y = -1 := by
  have low := x.le_toInt
  have high := x.toInt_lt
  have divisorLow := y.le_toInt
  have divisorHigh := y.toInt_lt
  have notZero : y.toInt ≠ 0 := by rwa [ne_eq, ← Int64.toInt_zero, Int64.toInt_inj]
  rw [int64?_eq_none_iff, ← Int64.toInt_inj, ← Int64.toInt_inj, Int64.toInt_minValue,
    Int64.toInt_maxValue]
  constructor
  · intro outside
    have small := Int.natAbs_ediv_le_natAbs x.toInt y.toInt
    have isQuotient : x.toInt / y.toInt = 2 ^ 63 := by omega
    have division := Int.mul_ediv_add_emod x.toInt y.toInt
    have remainder := Int.emod_nonneg x.toInt notZero
    have below := Int.emod_lt x.toInt notZero
    rw [isQuotient] at division
    change _ ∧ y.toInt = -1
    omega
  · rintro ⟨isLeast, isMinusOne⟩
    rw [isLeast, isMinusOne]
    decide

theorem Folded.division_eq_overflow_iff {result : Int → Int → Int} :
    division x y result = .overflow ↔ x = Int64.minValue ∧ y = -1 := by
  unfold division
  split
  · next isZero => simp [isZero]
  · next nonzero =>
    simp only [Option.isNone_iff_eq_none, int64?_ediv_eq_none_iff nonzero]
    split
    · next leaves => simp [leaves]
    · next fits =>
      unfold checked
      split <;> simp [fits]

theorem Folded.checked_ne_overflow (result : Int) : checked result ≠ .overflow := by
  unfold checked
  split <;> simp

theorem BinaryOp.fold_eq_overflow_iff {op : BinaryOp} :
    op.fold x y = .overflow ↔ (op = .div ∨ op = .mod) ∧ x = Int64.minValue ∧ y = -1 := by
  cases op <;> simp [fold, Folded.division_eq_overflow_iff, Folded.checked_ne_overflow]

end Words

namespace Expr

inductive Overflows : Expr → Prop
  | division {op a b} : op = .div ∨ op = .mod → a.constInt? = some Int64.minValue →
      b.constInt? = some (-1) → Overflows (binary op a b)
  | left {op a b} : Overflows a → Overflows (binary op a b)
  | right {op a b} : Overflows b → Overflows (binary op a b)
  | cast {t arg} : Overflows arg → Overflows (cast t arg)
  | not {arg} : Overflows arg → Overflows (not arg)
  | condition {condition whenTrue whenFalse} : Overflows condition →
      Overflows (select condition whenTrue whenFalse)
  | whenTrue {condition whenTrue whenFalse} : Overflows whenTrue →
      Overflows (select condition whenTrue whenFalse)
  | whenFalse {condition whenTrue whenFalse} : Overflows whenFalse →
      Overflows (select condition whenTrue whenFalse)
  | index {name t index} : Overflows index → Overflows (load name t index)
  | argument {name t args} (arg) : arg ∈ args → Overflows arg → Overflows (call name t args)

theorem simplifyBinary_eq_none_iff {op : BinaryOp} {a b : Expr} :
    simplifyBinary op a b = none ↔
      (op = .div ∨ op = .mod) ∧ a.int? = some Int64.minValue ∧ b.int? = some (-1) := by
  unfold simplifyBinary
  split
  · next x y leftInt rightInt =>
    rw [leftInt, rightInt, Option.some.injEq, Option.some.injEq, ← BinaryOp.fold_eq_overflow_iff]
    split <;> simp_all
  · next notBoth =>
    simp only [reduceCtorEq, false_iff]
    rintro ⟨-, leftInt, rightInt⟩
    exact notBoth _ _ leftInt rightInt

theorem simplifyAll_eq_none_iff {args : List Expr} :
    simplifyAll args = none ↔ ∃ arg ∈ args, arg.simplify = none := by
  induction args with
  | nil => simp [simplifyAll]
  | cons arg rest inductionHypothesis =>
    simp only [List.mem_cons, exists_eq_or_imp, ← inductionHypothesis, simplifyAll]
    cases arg.simplify <;> cases simplifyAll rest <;> simp

theorem constInt?_eq_some_iff {e : Expr} {word : Int64} :
    e.constInt? = some word ↔ ∃ simplified, e.simplify = some simplified ∧
      simplified.int? = some word := Option.bind_eq_some_iff

theorem Overflows.simplify_eq_none {e : Expr} (overflows : e.Overflows) : e.simplify = none := by
  induction overflows with
  | @division op a b isDivision least minusOne =>
    obtain ⟨a', left, isLeast⟩ := constInt?_eq_some_iff.mp least
    obtain ⟨b', right, isMinusOne⟩ := constInt?_eq_some_iff.mp minusOne
    have leaves := simplifyBinary_eq_none_iff.mpr ⟨isDivision, isLeast, isMinusOne⟩
    simp [simplify, left, right, leaves]
  | argument arg membership _ inductionHypothesis =>
    simp [simplify, simplifyAll_eq_none_iff.mpr ⟨arg, membership, inductionHypothesis⟩]
  | _ => simp_all [simplify]

mutual

theorem overflows_of_simplify {e : Expr} (none : e.simplify = none) : e.Overflows := by
  cases e with
  | int _ _ | float _ _ | string _ | var _ _ => cases none
  | binary op a b =>
    cases left : a.simplify with
    | none => exact .left (overflows_of_simplify left)
    | some a' =>
      cases right : b.simplify with
      | none => exact .right (overflows_of_simplify right)
      | some b' =>
        have leaves : simplifyBinary op a' b' = Option.none := by
          simpa [simplify, left, right] using none
        obtain ⟨isDivision, isLeast, isMinusOne⟩ := simplifyBinary_eq_none_iff.mp leaves
        exact .division isDivision (constInt?_eq_some_iff.mpr ⟨a', left, isLeast⟩)
          (constInt?_eq_some_iff.mpr ⟨b', right, isMinusOne⟩)
  | cast t arg =>
    cases isArg : arg.simplify with
    | none => exact .cast (overflows_of_simplify isArg)
    | some _ => simp [simplify, isArg] at none
  | not arg =>
    cases isArg : arg.simplify with
    | none => exact .not (overflows_of_simplify isArg)
    | some _ => simp [simplify, isArg] at none
  | select condition whenTrue whenFalse =>
    cases isCondition : condition.simplify with
    | none => exact .condition (overflows_of_simplify isCondition)
    | some _ =>
      cases isTrue : whenTrue.simplify with
      | none => exact .whenTrue (overflows_of_simplify isTrue)
      | some _ =>
        cases isFalse : whenFalse.simplify with
        | none => exact .whenFalse (overflows_of_simplify isFalse)
        | some _ => simp [simplify, isCondition, isTrue, isFalse] at none
  | load name t index =>
    cases isIndex : index.simplify with
    | none => exact .index (overflows_of_simplify isIndex)
    | some _ => simp [simplify, isIndex] at none
  | call name t args =>
    cases areArgs : simplifyAll args with
    | none =>
      obtain ⟨arg, membership, overflows⟩ := overflows_of_simplifyAll areArgs
      exact .argument arg membership overflows
    | some _ => simp [simplify, areArgs] at none

theorem overflows_of_simplifyAll {args : List Expr} (none : simplifyAll args = none) :
    ∃ arg ∈ args, arg.Overflows := by
  cases args with
  | nil => cases none
  | cons arg rest =>
    cases isArg : arg.simplify with
    | none => exact ⟨arg, by simp, overflows_of_simplify isArg⟩
    | some _ =>
      cases areRest : simplifyAll rest with
      | none =>
        obtain ⟨other, membership, overflows⟩ := overflows_of_simplifyAll areRest
        exact ⟨other, List.mem_cons_of_mem _ membership, overflows⟩
      | some _ => simp [simplifyAll, isArg, areRest] at none

end

/-- Folding fails exactly at a division of the least word by minus one. -/
theorem simplify_eq_none_iff {e : Expr} : e.simplify = none ↔ e.Overflows :=
  ⟨overflows_of_simplify, Overflows.simplify_eq_none⟩

end Expr

end StreamSynth
