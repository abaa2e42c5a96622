import StreamSynth.Proofs.Simplification

/-!
# Normal forms of expressions

An expression is normal when nothing in it is left to do: no operation or conversion of constants
has a constant result, and no operand is one that an identity removes. Operations that stay because
their result is out of range, or because they divide by zero, are normal as they are. The simplifier
gives normal forms only, and leaves a normal form as it is.
-/

namespace StreamSynth

namespace BinaryOp

/-- An operation on two constants stays: it is a comparison or a connective, its exact result is no
word, or it divides by zero. -/
def Stuck (op : BinaryOp) (x y : Int64) : Prop :=
  match op with
  | add => int64? (x.toInt + y.toInt) = none
  | sub => int64? (x.toInt - y.toInt) = none
  | mul => int64? (x.toInt * y.toInt) = none
  | div | mod => y = 0
  | min | max => False
  | eq | ne | lt | le | gt | ge | and | or => True

/-- One of the operands, as far as they are constants, is redundant: a zero or a one that does not
change the other, or a zero that makes a product zero. -/
def Redundant (op : BinaryOp) (x y : Option Int64) : Prop :=
  match op with
  | mul => x = some 1 ∨ y = some 1 ∨ x = some 0 ∨ y = some 0
  | add => x = some 0 ∨ y = some 0
  | sub => y = some 0
  | div => y = some 1
  | mod | min | max | eq | ne | lt | le | gt | ge | and | or => False

end BinaryOp

namespace Expr

inductive Normal : Expr → Prop
  | int {value t} : Normal (int value t)
  | float {value t} : Normal (float value t)
  | string {text} : Normal (string text)
  | var {name t} : Normal (var name t)
  | cast {t arg} : Normal arg → arg.int? = none ∨ t.isFloat ∨ t.isHandle → Normal (cast t arg)
  | binary {op a b} : Normal a → Normal b →
      (∀ x y, a.int? = some x → b.int? = some y → op.Stuck x y) →
      ¬ op.Redundant a.int? b.int? → Normal (binary op a b)
  | not {arg} : Normal arg → Normal (not arg)
  | select {condition whenTrue whenFalse} : Normal condition → Normal whenTrue →
      Normal whenFalse → Normal (select condition whenTrue whenFalse)
  | load {name t index} : Normal index → Normal (load name t index)
  | call {name t args} : (∀ arg ∈ args, Normal arg) → Normal (call name t args)

end Expr

section Folding

variable {x y : Int64}

theorem Folded.checked_eq_symbolic_iff {result : Int} :
    checked result = .symbolic ↔ int64? result = none := by
  unfold checked
  split <;> simp_all

/-- A remainder is smaller than the divisor, so it is a word. -/
theorem exists_int64?_emod (nonzero : y ≠ 0) : ∃ word, int64? (x.toInt % y.toInt) = some word := by
  have notZero : y.toInt ≠ 0 := by rwa [ne_eq, ← Int64.toInt_zero, Int64.toInt_inj]
  have low := Int.emod_nonneg x.toInt notZero
  have high := Int.emod_lt x.toInt notZero
  have divisorLow := y.le_toInt
  have divisorHigh := y.toInt_lt
  refine ⟨Int64.ofInt (x.toInt % y.toInt), ?_⟩
  rw [int64?_eq_some_iff, Int64.toInt_ofInt_of_le (by omega) (by omega)]

/-- Outside of overflow, a division is left only if it divides by zero. -/
theorem Folded.division_eq_symbolic_iff {result : Int → Int → Int}
    (isWord : y ≠ 0 → int64? (x.toInt / y.toInt) ≠ none →
      int64? (result x.toInt y.toInt) ≠ none) :
    division x y result = .symbolic ↔ y = 0 := by
  unfold division
  by_cases isZero : y = 0
  · simp [isZero]
  · rw [if_neg isZero]
    by_cases leaves : int64? (x.toInt / y.toInt) = none
    · simp [leaves, isZero]
    · simp [leaves, isZero, checked_eq_symbolic_iff, isWord isZero leaves]

/-- Folding leaves exactly the operations that are stuck. -/
theorem BinaryOp.fold_eq_symbolic_iff {op : BinaryOp} :
    op.fold x y = .symbolic ↔ op.Stuck x y := by
  cases op with
  | add => exact Folded.checked_eq_symbolic_iff
  | sub => exact Folded.checked_eq_symbolic_iff
  | mul => exact Folded.checked_eq_symbolic_iff
  | div => exact Folded.division_eq_symbolic_iff fun _ isWord => isWord
  | mod =>
    refine Folded.division_eq_symbolic_iff fun nonzero _ => ?_
    obtain ⟨word, isWord⟩ := exists_int64?_emod (x := x) nonzero
    simp [isWord]
  | min =>
    rw [fold, Folded.checked_eq_symbolic_iff, Int.min_def]
    split <;> simp [int64?_toInt, Stuck]
  | max =>
    rw [fold, Folded.checked_eq_symbolic_iff, Int.max_def]
    split <;> simp [int64?_toInt, Stuck]
  | eq | ne | lt | le | gt | ge | and | or => simp [fold, Stuck]

end Folding

namespace Expr

variable {a b : Expr} {op : BinaryOp}

theorem applyIdentity_of_not_redundant (needed : ¬ op.Redundant a.int? b.int?) :
    applyIdentity op a b = binary op a b := by
  cases op <;> simp_all [BinaryOp.Redundant, applyIdentity]

/-- Where an operand is redundant, an operand or zero takes the place of the operation. -/
theorem applyIdentity_of_redundant (redundant : op.Redundant a.int? b.int?) :
    applyIdentity op a b = a ∨ applyIdentity op a b = b ∨ ∃ t, applyIdentity op a b = int 0 t := by
  unfold applyIdentity
  cases op with
  | mul =>
    dsimp only
    split
    · exact .inr (.inl rfl)
    split
    · exact .inl rfl
    split
    · exact .inr (.inr ⟨_, rfl⟩)
    · next notOne notOne' notZero => simp_all [BinaryOp.Redundant]
  | add =>
    dsimp only
    split
    · exact .inr (.inl rfl)
    split
    · exact .inl rfl
    · next notZero notZero' => simp_all [BinaryOp.Redundant]
  | sub => exact .inl (if_pos redundant)
  | div => exact .inl (if_pos redundant)
  | _ => exact absurd redundant id

theorem normal_applyIdentity (left : a.Normal) (right : b.Normal)
    (stuck : ∀ x y, a.int? = some x → b.int? = some y → op.Stuck x y) :
    (applyIdentity op a b).Normal := by
  by_cases redundant : op.Redundant a.int? b.int?
  · rcases applyIdentity_of_redundant redundant with isLeft | isRight | ⟨t, isZero⟩
    · rwa [isLeft]
    · rwa [isRight]
    · rw [isZero]
      exact .int
  · rw [applyIdentity_of_not_redundant redundant]
    exact .binary left right stuck redundant

theorem normal_simplifyBinary {result : Expr} (left : a.Normal) (right : b.Normal)
    (isResult : simplifyBinary op a b = some result) : result.Normal := by
  unfold simplifyBinary at isResult
  split at isResult
  · next x y leftInt rightInt =>
    split at isResult
    · cases isResult
      exact .int
    · next symbolic =>
      cases isResult
      apply normal_applyIdentity left right
      intro x' y' leftInt' rightInt'
      rw [leftInt] at leftInt'
      rw [rightInt] at rightInt'
      cases leftInt'
      cases rightInt'
      exact BinaryOp.fold_eq_symbolic_iff.mp symbolic
    · cases isResult
  · next notBoth =>
    cases isResult
    exact normal_applyIdentity left right fun x y leftInt rightInt =>
      absurd rightInt (notBoth x y leftInt)

theorem normal_simplifyCast {t : ScalarType} (argument : a.Normal) : (simplifyCast t a).Normal := by
  unfold simplifyCast
  split
  · split
    · next kept => exact .cast argument (.inr (by simpa using kept))
    · exact .int
  · next notInt =>
    refine .cast argument (.inl ?_)
    cases a with
    | int value s => exact absurd rfl (notInt value s)
    | _ => rfl

mutual

theorem normal_of_simplify {e simplified : Expr} (isSimplified : e.simplify = some simplified) :
    simplified.Normal := by
  cases e with
  | int _ _ =>
    cases isSimplified
    exact .int
  | float _ _ =>
    cases isSimplified
    exact .float
  | string _ =>
    cases isSimplified
    exact .string
  | var _ _ =>
    cases isSimplified
    exact .var
  | binary op a b =>
    simp only [simplify, Option.bind_eq_bind, Option.bind_eq_some_iff] at isSimplified
    obtain ⟨a', left, b', right, isResult⟩ := isSimplified
    exact normal_simplifyBinary (normal_of_simplify left) (normal_of_simplify right) isResult
  | cast t arg =>
    simp only [simplify, Option.bind_eq_bind, Option.bind_eq_some_iff] at isSimplified
    obtain ⟨arg', argument, ⟨⟩⟩ := isSimplified
    exact normal_simplifyCast (normal_of_simplify argument)
  | not arg =>
    simp only [simplify, Option.bind_eq_bind, Option.bind_eq_some_iff] at isSimplified
    obtain ⟨arg', argument, ⟨⟩⟩ := isSimplified
    exact .not (normal_of_simplify argument)
  | select condition whenTrue whenFalse =>
    simp only [simplify, Option.bind_eq_bind, Option.bind_eq_some_iff] at isSimplified
    obtain ⟨condition', chosen, whenTrue', isTrue, whenFalse', isFalse, ⟨⟩⟩ := isSimplified
    exact .select (normal_of_simplify chosen) (normal_of_simplify isTrue)
      (normal_of_simplify isFalse)
  | load name t index =>
    simp only [simplify, Option.bind_eq_bind, Option.bind_eq_some_iff] at isSimplified
    obtain ⟨index', place, ⟨⟩⟩ := isSimplified
    exact .load (normal_of_simplify place)
  | call name t args =>
    simp only [simplify, Option.bind_eq_bind, Option.bind_eq_some_iff] at isSimplified
    obtain ⟨args', arguments, ⟨⟩⟩ := isSimplified
    exact .call (normal_of_simplifyAll arguments)

theorem normal_of_simplifyAll {args simplified : List Expr}
    (areSimplified : simplifyAll args = some simplified) : ∀ arg ∈ simplified, arg.Normal := by
  cases args with
  | nil =>
    cases areSimplified
    exact List.forall_mem_nil _
  | cons arg rest =>
    simp only [simplifyAll, Option.bind_eq_bind, Option.bind_eq_some_iff] at areSimplified
    obtain ⟨arg', argument, rest', arguments, ⟨⟩⟩ := areSimplified
    exact List.forall_mem_cons.mpr
      ⟨normal_of_simplify argument, normal_of_simplifyAll arguments⟩

end

theorem simplifyBinary_of_stuck
    (stuck : ∀ x y, a.int? = some x → b.int? = some y → op.Stuck x y)
    (needed : ¬ op.Redundant a.int? b.int?) : simplifyBinary op a b = some (binary op a b) := by
  unfold simplifyBinary
  split
  · next x y leftInt rightInt =>
    rw [BinaryOp.fold_eq_symbolic_iff.mpr (stuck x y leftInt rightInt),
      applyIdentity_of_not_redundant needed]
  · rw [applyIdentity_of_not_redundant needed]

theorem simplifyCast_of_kept {t : ScalarType} (kept : a.int? = none ∨ t.isFloat ∨ t.isHandle) :
    simplifyCast t a = cast t a := by
  unfold simplifyCast
  split
  · exact if_pos (by simpa [int?] using kept)
  · rfl

theorem simplifyAll_of_fixed {args : List Expr} (fixed : ∀ arg ∈ args, arg.simplify = some arg) :
    simplifyAll args = some args := by
  induction args with
  | nil => rfl
  | cons arg rest inductionHypothesis =>
    obtain ⟨first, later⟩ := List.forall_mem_cons.mp fixed
    simp [simplifyAll, first, inductionHypothesis later]

theorem Normal.simplify_eq {e : Expr} (normal : e.Normal) : e.simplify = some e := by
  induction normal with
  | int | float | string | var => rfl
  | cast _ kept argument => simp [simplify, argument, simplifyCast_of_kept kept]
  | binary _ _ stuck needed left right =>
    simp [simplify, left, right, simplifyBinary_of_stuck stuck needed]
  | not _ argument => simp [simplify, argument]
  | select _ _ _ condition whenTrue whenFalse => simp [simplify, condition, whenTrue, whenFalse]
  | load _ index => simp [simplify, index]
  | call _ arguments => simp [simplify, simplifyAll_of_fixed arguments]

theorem simplify_simplified {e simplified : Expr} (isSimplified : e.simplify = some simplified) :
    simplified.simplify = some simplified := (normal_of_simplify isSimplified).simplify_eq

/-- What the simplifier gives has nothing left to simplify, and a second run gives the same
expression again. -/
theorem simplify_idempotent {e simplified : Expr} (isSimplified : e.simplify = some simplified) :
    simplified.Normal ∧ simplified.simplify = some simplified :=
  ⟨normal_of_simplify isSimplified, (normal_of_simplify isSimplified).simplify_eq⟩

/-- Folds and identities that let the operation around them be simplified too, beside operations
that have to stay and a constant that is not a number. -/
theorem simplify_idempotent_exposedOperands :
    let outOfRange : Expr := .binary .mul (.binary .add (.ofInt Int64.maxValue) (.ofInt 1))
      (.binary .div (.ofInt 5) (.ofInt 0))
    let notANumber : Expr := .float ⟨0x7ff8000000000001⟩ (.float 64)
    let exposed : Expr := .binary .div
      (.binary .add (.binary .mul (.ofInt 0) (.var "w" .default)) (.var "h" .default))
      (.binary .sub (.ofInt 3) (.ofInt 2))
    let whole : Expr := .call "f" .default
      [.cast (.int 8) (.binary .mul (.ofInt 1) (.ofInt 200)), exposed, outOfRange,
        .binary .mul (.ofInt 1) notANumber]
    let simplified : Expr := .call "f" .default
      [.int (-56) (.int 8), .var "h" .default, outOfRange, notANumber]
    whole.simplify = some simplified ∧ simplified.Normal ∧
      simplified.simplify = some simplified := by
  intro outOfRange notANumber exposed whole simplified
  have isSimplified : whole.simplify = some simplified := by rfl
  exact ⟨isSimplified, simplify_idempotent isSimplified⟩

end Expr

end StreamSynth
