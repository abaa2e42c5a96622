import StreamSynth.Proofs.NormalForm
import StreamSynth.Proofs.RegionSite
import StreamSynth.Proofs.Valuation

/-!
# Sizes as products

A size is built factor by factor, and every step simplifies the product so far. The result is the
same as if the whole product had been simplified once: a simplified expression is simplified to
itself. So a size stops exactly where one of its factors does, and its value is the product of the
values of the extents.
-/

namespace StreamSynth

namespace Expr

def wholeProduct (factors : List Expr) : Expr := factors.foldl (binary .mul) (ofInt 1)

/-- The expression counts the elements of an array of the given extents: its value is the product
of their values, whatever the names stand for. -/
def Counts (size : Expr) (extents : List Expr) : Prop :=
  ∀ meaning values, evalAll meaning extents = some values →
    size.eval meaning = some (values.foldl (· * ·) 1)

section Products

variable {acc factor result : Expr}

/-- Multiplying a simplified expression by a factor fails only if the factor does. -/
theorem times_eq_none_iff (isSimplified : acc.simplify = some acc) :
    acc.times factor = none ↔ factor.Overflows := by
  rw [← simplify_eq_none_iff, times, simplify, isSimplified]
  cases factor.simplify with
  | none => simp
  | some factor' => simp [simplifyBinary_eq_none_iff]

theorem foldlM_times_eq_none_iff {factors : List Expr} (isSimplified : acc.simplify = some acc) :
    factors.foldlM times acc = none ↔ ∃ factor ∈ factors, factor.Overflows := by
  induction factors generalizing acc with
  | nil => simp
  | cons factor rest inductionHypothesis =>
    simp only [List.foldlM_cons, List.mem_cons, exists_eq_or_imp]
    rw [← times_eq_none_iff isSimplified]
    cases isProduct : acc.times factor with
    | none => simp
    | some product => simpa using inductionHypothesis (simplify_simplified isProduct)

theorem product_eq_none_iff {factors : List Expr} :
    product factors = none ↔ ∃ factor ∈ factors, factor.Overflows := foldlM_times_eq_none_iff rfl

theorem product_fits {factors : List Expr} {size : Expr} (isSize : product factors = some size) :
    ∀ factor ∈ factors, ¬ factor.Overflows := by
  intro factor membership overflows
  rw [product_eq_none_iff.mpr ⟨factor, membership, overflows⟩] at isSize
  cases isSize

/-- It does not matter whether the left factor was simplified before. -/
theorem bind_times (acc factor : Expr) :
    (acc.simplify.bind fun simplified => simplified.times factor) =
      (binary .mul acc factor).simplify := by
  cases isSimplified : acc.simplify with
  | none => simp [simplify, isSimplified]
  | some simplified =>
    have fixed : simplified.simplify = some simplified := simplify_simplified isSimplified
    simp [times, simplify, isSimplified, fixed]

theorem bind_foldlM_times (acc : Expr) (factors : List Expr) :
    acc.simplify.bind (factors.foldlM times) = (factors.foldl (binary .mul) acc).simplify := by
  induction factors generalizing acc with
  | nil => simp
  | cons factor rest inductionHypothesis =>
    rw [List.foldl_cons, ← inductionHypothesis, ← bind_times, Option.bind_assoc]
    rfl

/-- Simplifying after every factor gives what simplifying once at the end gives. -/
theorem product_eq_simplify_wholeProduct (factors : List Expr) :
    product factors = (wholeProduct factors).simplify :=
  bind_foldlM_times (ofInt 1) factors

theorem eval_foldl_mul {meaning : Interpretation} {factors : List Expr} {values : List Int}
    {x : Int}
    (start : acc.eval meaning = some x) (evaluate : evalAll meaning factors = some values) :
    (factors.foldl (binary .mul) acc).eval meaning = some (values.foldl (· * ·) x) := by
  induction factors generalizing acc x values with
  | nil =>
    cases evaluate
    exact start
  | cons factor rest inductionHypothesis =>
    simp only [evalAll, Option.bind_eq_bind, Option.bind_eq_some_iff] at evaluate
    obtain ⟨y, evaluates, later, evaluateLater, ⟨⟩⟩ := evaluate
    have step : (binary .mul acc factor).eval meaning = some (x * y) :=
      eval_binary_eq_some_iff.mpr ⟨x, y, start, evaluates, rfl⟩
    rw [List.foldl_cons, List.foldl_cons, inductionHypothesis step evaluateLater]

theorem counts_product {factors : List Expr} {size : Expr} (isSize : product factors = some size) :
    size.Counts factors := by
  intro meaning values evaluate
  rw [product_eq_simplify_wholeProduct] at isSize
  exact eval_simplify isSize (eval_foldl_mul rfl evaluate)

end Products

end Expr

namespace BufferSizes

variable {size : Expr} {extents : List Expr}

theorem get?_recordAllocation (sizes : BufferSizes) (name : String)
    (isSize : Expr.product extents = some size) :
    ∃ after, sizes.recordAllocation name extents = .ok after ∧ after.get? name = some size := by
  refine ⟨sizes.push name size, ?_, ?_⟩
  · rw [recordAllocation, isSize]
  · rw [Scope.get?_push, if_pos rfl]

/-- A shape is recorded like an allocation that has the extents of its dimensions. -/
theorem recordShape_of_length (sizes : BufferSizes) (name : String) {shape : List Expr}
    (whole : shape.length % 4 = 0) :
    sizes.recordShape name shape = sizes.recordAllocation name (extentFields shape) := by
  rw [recordShape, if_neg (not_not_intro whole), shapeExtents_eq_extentFields]

/-- A size that is simplified factor by factor is the whole product simplified once, and fails only
where one of its factors does. It counts the elements, and it is what an allocation with these
extents records, as does a shape with these extents among its fields. A shape with fields left over
is refused. -/
theorem product_is_whole_product (extents : List Expr) :
    Expr.product extents = (Expr.wholeProduct extents).simplify ∧
    (Expr.product extents = none ↔ ∃ extent ∈ extents, extent.simplify = none) ∧
    (∀ size, Expr.product extents = some size → size.Counts extents ∧
      ∀ (sizes : BufferSizes) (name : String),
        (∃ after, sizes.recordAllocation name extents = .ok after ∧
          after.get? name = some size) ∧
        ∀ shape, shape.length % 4 = 0 → extentFields shape = extents →
          ∃ after, sizes.recordShape name shape = .ok after ∧ after.get? name = some size) ∧
    ∀ (sizes : BufferSizes) (name : String) (shape : List Expr), shape.length % 4 ≠ 0 →
      sizes.recordShape name shape = .error (.refused (.malformed "make_struct"
        ("shape of `" ++ name ++ "` has " ++ toString shape.length ++
          " fields, expected a multiple of 4"))) := by
  refine ⟨Expr.product_eq_simplify_wholeProduct extents, ?_, ?_, ?_⟩
  · simp only [Expr.product_eq_none_iff, Expr.simplify_eq_none_iff]
  · intro size isSize
    refine ⟨Expr.counts_product isSize, fun sizes name => ?_⟩
    refine ⟨get?_recordAllocation sizes name isSize, fun shape whole areExtents => ?_⟩
    rw [recordShape_of_length sizes name whole, areExtents]
    exact get?_recordAllocation sizes name isSize
  · intro sizes name shape leftOver
    exact if_pos leftOver

def wideShape : List Expr :=
  [.ofInt 0, .ofInt Int64.maxValue, .ofInt 1, .ofInt 0,
   .ofInt 0, .cast (.uint 8) (.ofInt 258), .ofInt 1, .ofInt 0,
   .ofInt 0, .ofInt 1, .ofInt 1, .ofInt 0,
   .ofInt 0, .var "w" .default, .ofInt 1, .ofInt 0]

theorem product_is_whole_product_wideShape :
    let extents :=
      [.ofInt Int64.maxValue, .cast (.uint 8) (.ofInt 258), .ofInt 1, .var "w" .default]
    let size : Expr := .binary .mul (.binary .mul (.ofInt Int64.maxValue) (.int 2 (.uint 8)))
      (.var "w" .default)
    Expr.product extents = some size ∧ (Expr.wholeProduct extents).simplify = some size ∧
      size.eval Expr.counting = some 92233720368547758070 ∧
      ∃ after, recordShape .empty "in" wideShape = .ok after ∧ after.get? "in" = some size := by
  intro extents size
  have isSize : Expr.product extents = some size := by rfl
  obtain ⟨whole, -, recorded, -⟩ := product_is_whole_product extents
  obtain ⟨counts, records⟩ := recorded size isSize
  have values : Expr.evalAll Expr.counting extents = some [9223372036854775807, 2, 1, 5] := by rfl
  refine ⟨isSize, whole ▸ isSize, counts Expr.counting _ values, ?_⟩
  exact (records .empty "in").2 wideShape rfl rfl

end BufferSizes

end StreamSynth
