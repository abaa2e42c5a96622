import StreamSynth.Expr.Simplify

/-!
# The value of an expression

An expression of integers denotes an exact integer once its names, its memory and its functions
are given a meaning. Simplification keeps that integer: a constant is folded to the exact result
or not at all, a conversion of a constant is the conversion of its value, and the identities hold
for all integers.
-/

namespace StreamSynth

structure Interpretation where
  var : String → ScalarType → Int
  load : String → ScalarType → Int → Int
  call : String → ScalarType → List Int → Int
deriving Inhabited

namespace ScalarType

def modulus (t : ScalarType) : Nat := Nat.pow 2 t.bits.toNat

def least (t : ScalarType) : Int :=
  if t.kind = .int then -(Nat.pow 2 (t.bits.toNat - 1) : Nat) else 0

/-- Whether all integers of the type are 64-bit words: signed types of up to 64 bits, and unsigned
ones of up to 63. -/
def isExact (t : ScalarType) : Bool :=
  1 ≤ t.bits.toNat ∧ (t.kind = .int ∧ t.bits.toNat ≤ 64 ∨ t.kind = .uint ∧ t.bits.toNat ≤ 63)

/-- The value of an integer after a conversion to the type. A truth value tells whether the
integer is not zero. Otherwise it is the representative modulo the width in the range of the
type. -/
def convert? (t : ScalarType) (value : Int) : Option Int :=
  if t = .bool then some (if value = 0 then 0 else 1)
  else if t.isExact then some (t.least + (value - t.least) % t.modulus)
  else none

end ScalarType

def truth (holds : Bool) : Int := if holds then 1 else 0

/-- The value of an operation on integers. Division is Euclidean and undefined by zero. -/
def BinaryOp.result? (op : BinaryOp) (x y : Int) : Option Int :=
  match op with
  | add => some (x + y)
  | sub => some (x - y)
  | mul => some (x * y)
  | div => if y = 0 then none else some (x / y)
  | mod => if y = 0 then none else some (x % y)
  | min => some (Min.min x y)
  | max => some (Max.max x y)
  | eq => some (truth (x = y))
  | ne => some (truth (x ≠ y))
  | lt => some (truth (x < y))
  | le => some (truth (x ≤ y))
  | gt => some (truth (x > y))
  | ge => some (truth (x ≥ y))
  | and => some (truth (x ≠ 0 ∧ y ≠ 0))
  | or => some (truth (x ≠ 0 ∨ y ≠ 0))

namespace Expr

variable (meaning : Interpretation)

mutual

/-- The exact integer that an expression denotes, if it denotes one. Floating-point constants and
texts denote none, and a choice needs the value of the chosen case only. -/
def eval : Expr → Option Int
  | int value _ => some value.toInt
  | float _ _ => none
  | string _ => none
  | var name t => some (meaning.var name t)
  | cast t arg => do
    let value ← arg.eval
    t.convert? value
  | binary op a b => do
    let x ← a.eval
    let y ← b.eval
    op.result? x y
  | not arg => do
    let value ← arg.eval
    return truth (value = 0)
  | select condition whenTrue whenFalse => do
    let chosen ← condition.eval
    if chosen = 0 then whenFalse.eval else whenTrue.eval
  | load name t index => do
    let place ← index.eval
    return meaning.load name t place
  | call name t args => do
    let values ← evalAll args
    return meaning.call name t values

def evalAll : List Expr → Option (List Int)
  | [] => some []
  | arg :: rest => do
    let value ← arg.eval
    let values ← evalAll rest
    return value :: values

end

end Expr

section Conversion

variable {t : ScalarType} {value : Int}

theorem ScalarType.modulus_pos (t : ScalarType) : 0 < t.modulus := Nat.pow_pos (by decide)

/-- A conversion gives the one integer in the range of the type that is congruent to the value. -/
theorem ScalarType.convert?_eq_some_iff (notBool : t ≠ .bool) (exact : t.isExact = true)
    {result : Int} : t.convert? value = some result ↔
      t.least ≤ result ∧ result < t.least + t.modulus ∧ (t.modulus : Int) ∣ result - value := by
  rw [convert?, if_neg notBool, if_pos exact, Option.some.injEq]
  have positive := t.modulus_pos
  constructor
  · rintro rfl
    have low := Int.emod_nonneg (value - t.least) (by omega : (t.modulus : Int) ≠ 0)
    have high := Int.emod_lt_of_pos (value - t.least) (by omega : (0 : Int) < t.modulus)
    refine ⟨by omega, by omega, -((value - t.least) / t.modulus), ?_⟩
    rw [Int.emod_def, Int.mul_neg]
    omega
  · rintro ⟨low, high, multiple, isMultiple⟩
    have shifted : value - t.least = (result - t.least) - t.modulus * multiple := by omega
    rw [shifted, Int.sub_mul_emod_self_left, Int.emod_eq_of_lt (by omega) (by omega)]
    omega

theorem ScalarType.isExact_iff : t.isExact = true ↔ 1 ≤ t.bits.toNat ∧
    (t.kind = .int ∧ t.bits.toNat ≤ 64 ∨ t.kind = .uint ∧ t.bits.toNat ≤ 63) := by
  simp [isExact]

theorem ScalarType.modulus_eq (wide : 1 ≤ t.bits.toNat) :
    t.modulus = 2 * Nat.pow 2 (t.bits.toNat - 1) := by
  rw [modulus, ← Nat.sub_add_cancel wide]
  exact Nat.pow_succ'

theorem ScalarType.range_of_isExact (exact : t.isExact = true) :
    Int64.minValue.toInt ≤ t.least ∧ t.least + t.modulus ≤ Int64.maxValue.toInt + 1 := by
  rw [Int64.toInt_minValue, Int64.toInt_maxValue]
  obtain ⟨wide, ⟨isInt, narrow⟩ | ⟨isUint, narrow⟩⟩ := isExact_iff.mp exact
  · have half : Nat.pow 2 (t.bits.toNat - 1) ≤ 2 ^ 63 := Nat.pow_le_pow_right (by decide) (by omega)
    rw [least, if_pos isInt, modulus_eq wide]
    omega
  · have whole : t.modulus ≤ 2 ^ 63 := Nat.pow_le_pow_right (by decide) narrow
    rw [least, if_neg (by simp [isUint])]
    omega

theorem ScalarType.isFull_iff (exact : t.isExact = true) :
    (t.bits = 0 ∨ 64 ≤ t.bits) ↔ t.bits.toNat = 64 := by
  have widths := isExact_iff.mp exact
  rw [← UInt8.toNat_inj, UInt8.le_iff_toNat_le]
  change (t.bits.toNat = 0 ∨ 64 ≤ t.bits.toNat) ↔ _
  omega

/-- What folding makes of a 64-bit constant is its conversion. -/
theorem ScalarType.convert?_wrap (notBool : t ≠ .bool) (exact : t.isExact = true) (word : Int64) :
    t.convert? word.toInt = some (t.wrap word.toInt) := by
  have low := word.le_toInt
  have high := word.toInt_lt
  have positive := t.modulus_pos
  simp only [convert?_eq_some_iff notBool exact, wrap, if_neg notBool, isFull_iff exact]
  obtain ⟨wide, ⟨isInt, narrow⟩ | ⟨isUint, narrow⟩⟩ := isExact_iff.mp exact
  · have halves := modulus_eq wide
    rw [least, if_pos isInt]
    split
    · next full =>
      -- A word is in the range of the type already.
      have half : Nat.pow 2 (64 - 1) = 2 ^ 63 := rfl
      rw [halves, full, half, Int.sub_self]
      exact ⟨by omega, by omega, Int.dvd_zero _⟩
    · change _ ≤ Int.bmod _ t.modulus ∧ Int.bmod _ t.modulus < _ ∧ _ ∣ Int.bmod _ t.modulus - _
      have reduced := Int.le_bmod (x := word.toInt) positive
      have below := Int.bmod_lt (x := word.toInt) positive
      exact ⟨by omega, by omega, Int.dvd_bmod_sub_self⟩
  · rw [least, if_neg (by simp [isUint]), if_neg (by omega), if_neg (by simp [isUint])]
    change _ ≤ _ % (t.modulus : Int) ∧ _ % (t.modulus : Int) < _ ∧ _ ∣ _ % (t.modulus : Int) - _
    refine ⟨Int.emod_nonneg _ (by omega), ?_, Int.dvd_emod_sub_self⟩
    have below := Int.emod_lt_of_pos word.toInt (by omega : (0 : Int) < t.modulus)
    omega

theorem ScalarType.convert?_word (word : Int64) {result : Int}
    (converts : t.convert? word.toInt = some result) :
    (Int64.ofInt (t.wrap word.toInt)).toInt = result := by
  by_cases isBool : t = .bool
  · rw [convert?, if_pos isBool, Option.some.injEq] at converts
    rw [wrap, if_pos isBool, ← converts]
    split <;> rfl
  by_cases exact : t.isExact = true
  · have isResult := convert?_wrap isBool exact word
    rw [converts, Option.some.injEq] at isResult
    obtain ⟨low, high, -⟩ := (convert?_eq_some_iff isBool exact).mp converts
    have range := range_of_isExact exact
    rw [Int64.toInt_minValue, Int64.toInt_maxValue] at range
    rw [← isResult, Int64.toInt_ofInt_of_le (by omega) (by omega)]
  · rw [convert?, if_neg isBool, if_neg exact] at converts
    cases converts

end Conversion

section Folding

theorem Folded.checked_eq_value_iff {result : Int} {word : Int64} :
    checked result = .value word ↔ word.toInt = result := by
  rw [← int64?_eq_some_iff, checked]
  cases int64? result <;> simp

theorem Folded.division_eq_value {x y word : Int64} {result : Int → Int → Int}
    (folds : division x y result = .value word) :
    y.toInt ≠ 0 ∧ word.toInt = result x.toInt y.toInt := by
  unfold division at folds
  split at folds
  · cases folds
  · next nonzero =>
    split at folds
    · cases folds
    · refine ⟨fun isZero => nonzero ?_, checked_eq_value_iff.mp folds⟩
      rwa [← Int64.toInt_inj]

theorem BinaryOp.result?_of_fold {op : BinaryOp} {x y word : Int64}
    (folds : op.fold x y = .value word) : op.result? x.toInt y.toInt = some word.toInt := by
  cases op with
  | div =>
    obtain ⟨nonzero, isResult⟩ := Folded.division_eq_value folds
    rw [result?, if_neg nonzero, isResult]
  | mod =>
    obtain ⟨nonzero, isResult⟩ := Folded.division_eq_value folds
    rw [result?, if_neg nonzero, isResult]
  | add => rw [result?, Folded.checked_eq_value_iff.mp folds]
  | sub => rw [result?, Folded.checked_eq_value_iff.mp folds]
  | mul => rw [result?, Folded.checked_eq_value_iff.mp folds]
  | min => rw [result?, Folded.checked_eq_value_iff.mp folds]
  | max => rw [result?, Folded.checked_eq_value_iff.mp folds]
  | _ => cases folds

end Folding

namespace Expr

variable {meaning : Interpretation} {e a b simplified : Expr} {op : BinaryOp} {v : Int}

theorem eval_of_int? (meaning : Interpretation) {word : Int64} (isInt : e.int? = some word) :
    e.eval meaning = some word.toInt := by
  cases e with
  | int value t =>
    cases isInt
    rfl
  | _ => cases isInt

theorem eval_binary_eq_some_iff : (binary op a b).eval meaning = some v ↔
    ∃ x y, a.eval meaning = some x ∧ b.eval meaning = some y ∧ op.result? x y = some v := by
  simp [eval, Option.bind_eq_some_iff]

theorem eval_applyIdentity (evaluates : (binary op a b).eval meaning = some v) :
    (applyIdentity op a b).eval meaning = some v := by
  obtain ⟨x, y, left, right, applies⟩ := eval_binary_eq_some_iff.mp evaluates
  have leftIs : ∀ {word : Int64}, a.int? = some word → x = word.toInt := by
    intro word isInt
    simpa [left] using eval_of_int? meaning isInt
  have rightIs : ∀ {word : Int64}, b.int? = some word → y = word.toInt := by
    intro word isInt
    simpa [right] using eval_of_int? meaning isInt
  cases op with
  | mul =>
    rw [BinaryOp.result?, Option.some.injEq] at applies
    unfold applyIdentity
    dsimp only
    split
    · next isOne => simpa [right, leftIs isOne] using applies
    split
    · next isOne => simpa [left, rightIs isOne] using applies
    split
    · next isZero =>
      have product : x * y = 0 := by
        rcases isZero with isZero | isZero
        · simp [leftIs isZero]
        · simp [rightIs isZero]
      rw [eval, ← applies, product]
      rfl
    · exact evaluates
  | add =>
    rw [BinaryOp.result?, Option.some.injEq] at applies
    unfold applyIdentity
    dsimp only
    split
    · next isZero => simpa [right, leftIs isZero] using applies
    split
    · next isZero => simpa [left, rightIs isZero] using applies
    · exact evaluates
  | sub =>
    rw [BinaryOp.result?, Option.some.injEq] at applies
    unfold applyIdentity
    dsimp only
    split
    · next isZero => simpa [left, rightIs isZero] using applies
    · exact evaluates
  | div =>
    unfold applyIdentity
    dsimp only
    split
    · next isOne => simpa [left, rightIs isOne, BinaryOp.result?] using applies
    · exact evaluates
  | _ => exact evaluates

theorem eval_simplifyBinary (isSimplified : simplifyBinary op a b = some simplified)
    (evaluates : (binary op a b).eval meaning = some v) : simplified.eval meaning = some v := by
  unfold simplifyBinary at isSimplified
  split at isSimplified
  · next x y leftInt rightInt =>
    split at isSimplified
    · next word folds =>
      cases isSimplified
      have exact : (binary op a b).eval meaning = some word.toInt :=
        eval_binary_eq_some_iff.mpr ⟨_, _, eval_of_int? meaning leftInt,
          eval_of_int? meaning rightInt, BinaryOp.result?_of_fold folds⟩
      rwa [exact] at evaluates
    · cases isSimplified
      exact eval_applyIdentity evaluates
    · cases isSimplified
  · cases isSimplified
    exact eval_applyIdentity evaluates

theorem eval_simplifyCast {t : ScalarType} (evaluates : (cast t a).eval meaning = some v) :
    (simplifyCast t a).eval meaning = some v := by
  unfold simplifyCast
  split
  · next word _ =>
    split
    · exact evaluates
    · have converts : t.convert? word.toInt = some v := by simpa [eval] using evaluates
      rw [eval, ScalarType.convert?_word word converts]
  · exact evaluates

mutual

theorem eval_simplify {e simplified : Expr} {v : Int} (isSimplified : e.simplify = some simplified)
    (evaluates : e.eval meaning = some v) : simplified.eval meaning = some v := by
  cases e with
  | int _ _ | float _ _ | string _ | var _ _ =>
    cases isSimplified
    exact evaluates
  | binary op a b =>
    simp only [simplify, Option.bind_eq_bind, Option.bind_eq_some_iff] at isSimplified
    obtain ⟨a', left, b', right, isSimplified⟩ := isSimplified
    obtain ⟨x, y, leftValue, rightValue, applies⟩ := eval_binary_eq_some_iff.mp evaluates
    apply eval_simplifyBinary isSimplified
    exact eval_binary_eq_some_iff.mpr
      ⟨x, y, eval_simplify left leftValue, eval_simplify right rightValue, applies⟩
  | cast t arg =>
    simp only [simplify, Option.bind_eq_bind, Option.bind_eq_some_iff] at isSimplified
    obtain ⟨arg', argSimplified, ⟨⟩⟩ := isSimplified
    simp only [eval, Option.bind_eq_bind, Option.bind_eq_some_iff] at evaluates
    obtain ⟨x, argValue, converts⟩ := evaluates
    apply eval_simplifyCast
    simp only [eval, eval_simplify argSimplified argValue, Option.bind_eq_bind, Option.bind_some,
      converts]
  | not arg =>
    simp only [simplify, Option.bind_eq_bind, Option.bind_eq_some_iff] at isSimplified
    obtain ⟨arg', argSimplified, ⟨⟩⟩ := isSimplified
    simp only [eval, Option.bind_eq_bind, Option.bind_eq_some_iff] at evaluates ⊢
    obtain ⟨x, argValue, isResult⟩ := evaluates
    exact ⟨x, eval_simplify argSimplified argValue, isResult⟩
  | select condition whenTrue whenFalse =>
    simp only [simplify, Option.bind_eq_bind, Option.bind_eq_some_iff] at isSimplified
    obtain ⟨condition', conditionSimplified, whenTrue', trueSimplified, whenFalse',
      falseSimplified, ⟨⟩⟩ := isSimplified
    simp only [eval, Option.bind_eq_bind, Option.bind_eq_some_iff] at evaluates ⊢
    obtain ⟨x, chosen, isResult⟩ := evaluates
    refine ⟨x, eval_simplify conditionSimplified chosen, ?_⟩
    split at isResult
    · next isZero => rw [if_pos isZero, eval_simplify falseSimplified isResult]
    · next notZero => rw [if_neg notZero, eval_simplify trueSimplified isResult]
  | load name t index =>
    simp only [simplify, Option.bind_eq_bind, Option.bind_eq_some_iff] at isSimplified
    obtain ⟨index', indexSimplified, ⟨⟩⟩ := isSimplified
    simp only [eval, Option.bind_eq_bind, Option.bind_eq_some_iff] at evaluates ⊢
    obtain ⟨place, indexValue, isResult⟩ := evaluates
    exact ⟨place, eval_simplify indexSimplified indexValue, isResult⟩
  | call name t args =>
    simp only [simplify, Option.bind_eq_bind, Option.bind_eq_some_iff] at isSimplified
    obtain ⟨args', argsSimplified, ⟨⟩⟩ := isSimplified
    simp only [eval, Option.bind_eq_bind, Option.bind_eq_some_iff] at evaluates ⊢
    obtain ⟨values, argValues, isResult⟩ := evaluates
    exact ⟨values, evalAll_simplifyAll argsSimplified argValues, isResult⟩

theorem evalAll_simplifyAll {args simplified : List Expr} {values : List Int}
    (isSimplified : simplifyAll args = some simplified)
    (evaluates : evalAll meaning args = some values) :
    evalAll meaning simplified = some values := by
  cases args with
  | nil =>
    cases isSimplified
    exact evaluates
  | cons arg rest =>
    simp only [simplifyAll, Option.bind_eq_bind, Option.bind_eq_some_iff] at isSimplified
    obtain ⟨arg', argSimplified, rest', restSimplified, ⟨⟩⟩ := isSimplified
    simp only [evalAll, Option.bind_eq_bind, Option.bind_eq_some_iff] at evaluates ⊢
    obtain ⟨x, argValue, later, restValues, isResult⟩ := evaluates
    exact ⟨x, eval_simplify argSimplified argValue, later,
      evalAll_simplifyAll restSimplified restValues, isResult⟩

end

/-- Whatever the names stand for, an expression that has a value has the same value when it is
simplified, and if it simplifies to a constant then that constant is the value. -/
theorem simplify_keeps_value {e simplified : Expr} (isSimplified : e.simplify = some simplified)
    (meaning : Interpretation) {v : Int} (evaluates : e.eval meaning = some v) :
    simplified.eval meaning = some v ∧ ∀ n, e.constInt? = some n → n.toInt = v := by
  have kept := eval_simplify isSimplified evaluates
  refine ⟨kept, fun n isConstant => ?_⟩
  rw [constInt?, isSimplified, Option.bind_some] at isConstant
  simpa [eval_of_int? meaning isConstant] using kept

def partlyFolded (scaled index : Expr) (argument : Expr) : Expr :=
  .binary .add
    (.select (.binary .lt (.var "x" .default) (.ofInt 0)) (.binary .div (.ofInt 1) (.ofInt 0))
      scaled)
    (.call "f" .default [argument, .load "buf" .default index])

def counting : Interpretation where
  var _ _ := 5
  load _ _ place := place + 10
  call _ _ values := values.foldl (· + ·) 0

theorem simplify_keeps_value_partlyFolded :
    let beyond : Expr := .binary .add (.ofInt Int64.maxValue) (.ofInt 1)
    let whole := partlyFolded (.binary .mul (.ofInt 1) beyond)
      (.binary .mod (.ofInt (-7)) (.ofInt 2))
      (.cast (.int 8) (.binary .mul (.ofInt 2) (.ofInt 100)))
    let simplified := partlyFolded beyond (.ofInt 1) (.int (-56) (.int 8))
    whole.simplify = some simplified ∧ whole.eval counting = some 9223372036854775763 ∧
      simplified.eval counting = some 9223372036854775763 := by
  intro beyond whole simplified
  have isSimplified : whole.simplify = some simplified := by rfl
  have evaluates : whole.eval counting = some 9223372036854775763 := by rfl
  exact ⟨isSimplified, evaluates, (simplify_keeps_value isSimplified counting evaluates).1⟩

end Expr

end StreamSynth
