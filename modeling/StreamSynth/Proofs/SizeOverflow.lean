import StreamSynth.Compile
import StreamSynth.Proofs.ParsedForm
import StreamSynth.Proofs.RunLogic
import StreamSynth.Proofs.SizeProduct

/-!
# Compilations that stop at a size

Lowering folds the extents of allocations, of realizations and of buffer descriptors. A division
whose quotient no word holds stops the whole compilation there, without a report. This happens
exactly when one of the folded expressions contains such a division and nothing was reported
before.
-/

namespace StreamSynth

def descriptorExtents (value : Expr) : List Expr :=
  match Host.descriptorShape? value with
  | some (_, shape) => extentFields shape
  | none => []

/-- The expressions that lowering a statement folds. Inside a region nothing is known of
descriptors. -/
def Stmt.foldedParts (naming : Naming) : Bool → Stmt → List Expr
  | inRegion, .letIn _ value body =>
    (if inRegion then [] else descriptorExtents value) ++ body.foldedParts naming inRegion
  | inRegion, .produce name body =>
    body.foldedParts naming (inRegion || (naming.regionTarget? name).isSome)
  | inRegion, .consume _ body | inRegion, .loop _ _ _ body => body.foldedParts naming inRegion
  | inRegion, .allocate _ _ extents body => extents ++ body.foldedParts naming inRegion
  | inRegion, .realize _ _ bounds body =>
    bounds.map Bound.extent ++ body.foldedParts naming inRegion
  | inRegion, .block first rest =>
    first.foldedParts naming inRegion ++ rest.foldedParts naming inRegion
  | inRegion, .ifThen _ thenCase => thenCase.foldedParts naming inRegion
  | inRegion, .ifThenElse _ thenCase elseCase =>
    thenCase.foldedParts naming inRegion ++ elseCase.foldedParts naming inRegion
  | _, .assert _ _ | _, .store _ _ _ | _, .provide _ _ _ | _, .free _ | _, .evaluate _ => []

/-- What is computed from the given expressions: there is a result only if none of them overflows,
and an overflow only if one of them does. -/
structure FoldsTo {α : Type} (result : Except Stop α) (parts : List Expr) : Prop where
  of_ok : ∀ {a}, result = .ok a → ∀ e ∈ parts, ¬ e.Overflows
  of_overflow : result = .error .overflow → ∃ e ∈ parts, e.Overflows

namespace FoldsTo

variable {α β : Type} {result : Except Stop α} {parts others : List Expr}

theorem fit (fits : ∀ e ∈ parts, ¬ e.Overflows) (a : α) : FoldsTo (.ok a) parts where
  of_ok _ := fits
  of_overflow stopped := by cases stopped

theorem ok (a : α) : FoldsTo (.ok a) [] := fit (List.forall_mem_nil _) a

theorem refused (e : LoweringError) (parts : List Expr) :
    FoldsTo (.error (.refused e) : Except Stop α) parts where
  of_ok succeeded := by cases succeeded
  of_overflow stopped := by cases stopped

theorem overflow {e : Expr} (membership : e ∈ parts) (overflows : e.Overflows) :
    FoldsTo (.error .overflow : Except Stop α) parts where
  of_ok succeeded := by cases succeeded
  of_overflow _ := ⟨e, membership, overflows⟩

theorem behind (fits : ∀ e ∈ parts, ¬ e.Overflows) (folds : FoldsTo result others) :
    FoldsTo result (parts ++ others) where
  of_ok succeeded e membership := by
    rcases List.mem_append.mp membership with inFirst | inSecond
    · exact fits e inFirst
    · exact folds.of_ok succeeded e inSecond
  of_overflow isOverflow := by
    obtain ⟨e, membership, overflows⟩ := folds.of_overflow isOverflow
    exact ⟨e, List.mem_append_right _ membership, overflows⟩

theorem map (folds : FoldsTo result parts) (f : α → β) :
    FoldsTo (result >>= fun a => .ok (f a)) parts := by
  cases result with
  | ok a => exact fit (folds.of_ok rfl) (f a)
  | error stop =>
    cases stop with
    | refused e => exact refused e parts
    | overflow =>
      obtain ⟨e, membership, overflows⟩ := folds.of_overflow rfl
      exact overflow membership overflows

theorem recordAllocation (sizes : BufferSizes) (name : String) (extents : List Expr) :
    FoldsTo (sizes.recordAllocation name extents) extents := by
  unfold BufferSizes.recordAllocation
  split
  · next size isSize => exact fit (Expr.product_fits isSize) _
  · next stopped =>
    obtain ⟨e, membership, overflows⟩ := Expr.product_eq_none_iff.mp stopped
    exact overflow membership overflows

theorem letEnv (naming : Naming) (env : Env) (value : Expr) :
    FoldsTo (Host.letEnv naming env value) (descriptorExtents value) := by
  unfold Host.letEnv descriptorExtents
  cases Host.descriptorShape? value with
  | none => exact ok env
  | some described =>
    dsimp only
    unfold BufferSizes.recordShape
    split
    · exact refused _ _
    · rw [shapeExtents_eq_extentFields]
      exact (recordAllocation _ _ _).map _

theorem extentsOf (done : List Nat) (bounds : List Bound) :
    FoldsTo (StencilType.extentsOf done bounds) (bounds.map Bound.extent) := by
  induction bounds generalizing done with
  | nil => exact ok done
  | cons bound rest inductionHypothesis =>
    unfold StencilType.extentsOf
    split
    · next stopped => exact overflow (by simp) (Expr.simplify_eq_none_iff.mp stopped)
    · next extent isExtent =>
      have fits : ∀ e ∈ [bound.extent], ¬ e.Overflows := by
        simp [← Expr.simplify_eq_none_iff, isExtent]
      apply behind fits
      split
      · exact refused _ _
      · split
        · exact refused _ _
        · exact inductionHypothesis _

theorem ofBounds (layout : StencilLayout) (element : ScalarType) (bounds : List Bound)
    (depth : Nat) :
    FoldsTo (StencilType.ofBounds layout element bounds depth) (bounds.map Bound.extent) := by
  unfold StencilType.ofBounds
  split
  · exact refused _ _
  · exact (extentsOf [] bounds).map _

end FoldsTo

namespace Emission

variable {σ α β : Type} {parts others : List Expr}

/-- A run gives a value only if none of the expressions overflows, and it overflows only if one of
them does. -/
def foldLogic (σ : Type) : RunLogic Expr σ σ where
  starts s t := s = t
  passes parts _ _ s t := s = t ∧ ∀ e ∈ parts, ¬ e.Overflows
  stops parts stop _ _ _ _ := stop = .overflow → ∃ e ∈ parts, e.Overflows
  isOwn _ := False
  starts_of_passes passed := passed.1
  passes_nil same := ⟨same, List.forall_mem_nil _⟩
  passes_append first second := ⟨second.1, List.forall_mem_append.mpr ⟨first.2, second.2⟩⟩
  stops_append stopped _ isOverflow := by
    obtain ⟨e, membership, overflows⟩ := stopped isOverflow
    exact ⟨e, List.mem_append_left _ membership, overflows⟩
  stops_of_passes _ stopped isOverflow := by
    obtain ⟨e, membership, overflows⟩ := stopped isOverflow
    exact ⟨e, List.mem_append_right _ membership, overflows⟩
  refuses _ _ _ isOverflow := by cases isOverflow

abbrev Folds (steps : Emission σ α) (parts : List Expr) : Prop :=
  (foldLogic σ).Holds parts steps steps

namespace Folds

theorem of_mem_iff {steps : Emission σ α} (folds : steps.Folds parts)
    (same : ∀ e, e ∈ others ↔ e ∈ parts) : steps.Folds others := by
  refine folds.imp ?_ ?_
  · rintro _ _ _ _ ⟨isSame, fits⟩
    exact ⟨isSame, fun e membership => fits e ((same e).mp membership)⟩
  · intro _ _ _ _ _ stopped isOverflow
    obtain ⟨e, membership, overflows⟩ := stopped isOverflow
    exact ⟨e, (same e).mpr membership, overflows⟩

theorem modified (f : σ → σ) : (modify f : Emission σ Unit).Folds [] :=
  .change fun _ _ same => ⟨congrArg f same, List.forall_mem_nil _⟩

theorem ofStop {result : Except Stop α} (folds : FoldsTo result parts) :
    (Emission.ofStop result : Emission σ α).Folds parts := by
  intro s t same
  cases result with
  | ok a => exact .ok ⟨same, folds.of_ok rfl⟩
  | error stop => exact .error fun isOverflow => folds.of_overflow (congrArg _ isOverflow)

theorem ofProduct {factors : List Expr} {next : Expr → Emission σ β}
    (rest : ∀ size, (next size).Folds others) :
    (Emission.ofFold (Expr.product factors) >>= next).Folds (factors ++ others) := by
  refine .bind ?_ rest
  intro s t same
  cases isSize : Expr.product factors with
  | none => exact .error fun _ => Expr.product_eq_none_iff.mp isSize
  | some size => exact .ok ⟨same, Expr.product_fits isSize⟩

end Folds

end Emission

namespace Emitter

variable {σ : Type} {e : Emitter σ} {inRegion : Bool}

open Emission.Folds RunLogic.Holds

structure FoldsBy (e : Emitter σ) (inRegion : Bool) : Prop where
  letEnv : ∀ env value,
    FoldsTo (e.letEnv env value) (if inRegion then [] else descriptorExtents value)
  allocateEnv : ∀ env name extents,
    ∃ parts, parts ⊆ extents ∧ FoldsTo (e.allocateEnv env name extents) parts
  region : ∀ {name body write}, e.region? name body = some write → ∀ env,
    (write env).Folds (body.foldedParts e.naming
      (inRegion || (e.naming.regionTarget? name).isSome))
  noRegion : ∀ {name body}, e.region? name body = none →
    (inRegion || (e.naming.regionTarget? name).isSome) = inRegion
  intrinsic : ∀ {value write}, e.intrinsic? value = some write → write.Folds []

theorem folds_line (text : String) : (e.line text).Folds [] := modified _

theorem folds_indented (opening : String) {body : Emission σ Unit} {parts : List Expr}
    (folds : body.Folds parts) : (e.indented opening body).Folds parts :=
  (folds_line opening).before fun _ => (modified _).before fun _ =>
    folds.behind fun _ => modified _

theorem FoldsBy.emit (foldsBy : e.FoldsBy inRegion) (s : Stmt) (env : Env) :
    (e.emit s env).Folds (s.foldedParts e.naming inRegion) := by
  induction s generalizing env with
  | letIn name value body bodyFolds =>
    exact (ofStop (foldsBy.letEnv env value)).bind fun _ => ofExcept_bind fun _ _ =>
      (folds_line _).before fun _ => bodyFolds _
  | assert condition message => exact ofExcept_bind fun _ _ => folds_line _
  | produce name body bodyFolds =>
    rw [Emitter.emit, Stmt.foldedParts]
    split
    · next write isRegion => exact foldsBy.region isRegion env
    · next noRegion =>
      rw [foldsBy.noRegion noRegion]
      exact (folds_line _).before fun _ => bodyFolds env
  | consume name body bodyFolds => exact (folds_line _).before fun _ => bodyFolds env
  | loop name min extent body bodyFolds =>
    exact ofExcept_bind fun _ _ => ofExcept_bind fun _ _ =>
      (folds_indented _ (bodyFolds env)).behind fun _ => folds_line _
  | store name value index =>
    exact ofExcept_bind fun _ _ => ofExcept_bind fun _ _ => folds_line _
  | provide name value args =>
    exact ofExcept_bind fun _ _ => ofExcept_bind fun _ _ => folds_line _
  | allocate name type extents body bodyFolds =>
    obtain ⟨parts, among, envFolds⟩ := foldsBy.allocateEnv env name extents
    have folds : (e.emit (.allocate name type extents body) env).Folds
        (parts ++ (extents ++ body.foldedParts e.naming inRegion)) := by
      rw [Emitter.emit]
      refine (ofStop envFolds).bind fun env => ofProduct fun size => ?_
      split
      · exact (folds_line _).before fun _ => bodyFolds env
      · exact (modified _).before fun _ => ofExcept_bind fun _ _ => (folds_line _).before fun _ =>
          bodyFolds env
    refine folds.of_mem_iff fun part => ?_
    rw [Stmt.foldedParts, List.mem_append (s := parts)]
    exact (or_iff_right_of_imp fun inParts =>
      List.mem_append_left _ (among inParts)).symm
  | free name =>
    rw [Emitter.emit]
    split
    · exact pure ()
    · exact modified _
  | realize name type bounds body bodyFolds =>
    rw [Emitter.emit]
    split
    · exact (ofStop (.ofBounds _ _ _ _)).bind fun _ => (modified _).before fun _ => bodyFolds _
    split
    · exact (ofStop (.ofBounds _ _ _ _)).bind fun _ => (modified _).before fun _ => bodyFolds _
    · refine ofProduct fun size => ?_
      split
      · exact refused _
      · exact (folds_line _).before fun _ => bodyFolds _
  | block first rest firstFolds restFolds =>
    rw [Emitter.emit, Stmt.foldedParts]
    refine ofExcept_bind fun isDrain _ => ?_
    split
    · refine ofExcept_bind fun isPair _ => ?_
      split
      · exact refused _
      · refine of_mem_iff ((restFolds env).bind fun _ => firstFolds env) fun part => ?_
        rw [List.mem_append, List.mem_append, or_comm]
    · exact (firstFolds env).bind fun _ => restFolds env
  | ifThen condition thenCase thenFolds =>
    exact ofExcept_bind fun _ _ =>
      (folds_indented _ (thenFolds env)).behind fun _ => folds_line _
  | ifThenElse condition thenCase elseCase thenFolds elseFolds =>
    exact ofExcept_bind fun _ _ => (folds_indented _ (thenFolds env)).bind fun _ =>
      (folds_indented _ (elseFolds env)).behind fun _ => folds_line _
  | evaluate value =>
    rw [Emitter.emit]
    split
    · next write isIntrinsic => exact foldsBy.intrinsic isIntrinsic
    split
    · exact pure ()
    · exact ofExcept_bind fun _ _ => folds_line _

/-- Inside a region nothing goes a way of its own. -/
theorem foldsBy_plain (naming : Naming) (streamDepth : Nat) :
    (plain naming streamDepth).FoldsBy true where
  letEnv env _ := .ok env
  allocateEnv env _ _ := ⟨[], List.nil_subset _, .ok env⟩
  region isRegion := by cases isRegion
  noRegion _ := rfl
  intrinsic isIntrinsic := by cases isIntrinsic

end Emitter

namespace KernelFiles

open Emission.Folds RunLogic.Holds

theorem folds_onSource {steps : Emission Writer Unit} {parts : List Expr}
    (folds : steps.Folds parts) : (onSource steps).Folds parts := by
  rintro files _ rfl
  have ends := folds files.source _ rfl
  unfold onSource
  generalize steps files.source = reached at ends ⊢
  cases ends with
  | own isOwn => cases isOwn
  | ok passed => exact .ok ⟨rfl, passed.2⟩
  | error stopped => exact .error stopped

theorem folds_emitKernel (config : Config) (name : String) (args : List Argument) (body : Stmt) :
    (emitKernel config name args body).Folds (body.foldedParts config.naming true) := by
  have bodyFolds := (Emitter.foldsBy_plain config.naming config.streamDepth).emit body
    ⟨.empty, argumentScope args⟩
  exact (modified _).before fun _ => folds_onSource
    ((Emitter.folds_indented _ ((modified _).before fun _ => bodyFolds)).behind fun _ => modified _)

end KernelFiles

namespace Host

open Emission.Folds RunLogic.Holds

theorem folds_onKernels {steps : Emission KernelFiles Unit} {parts : List Expr}
    (folds : steps.Folds parts) : (onKernels steps).Folds parts := by
  rintro host _ rfl
  have ends := folds host.kernels _ rfl
  unfold onKernels
  generalize steps host.kernels = reached at ends ⊢
  cases ends with
  | own isOwn => cases isOwn
  | ok passed => exact .ok ⟨rfl, passed.2⟩
  | error stopped => exact .error stopped

theorem folds_freshKernel {config : Config} {target : String} :
    (freshKernel config target).Folds [] := by
  rintro host _ rfl
  exact .ok ⟨rfl, List.forall_mem_nil _⟩

theorem folds_lowerRegion (config : Config) (target : String) (body : Stmt) (env : Env) :
    (lowerRegion config target body env).Folds (body.foldedParts config.naming true) :=
  ofExcept_bind fun _ _ => before folds_freshKernel fun _ =>
    (folds_onKernels (KernelFiles.folds_emitKernel _ _ _ _)).behind fun _ =>
      (modified _).before fun _ => modified _

theorem folds_transfer (args : List Expr) : (transfer args).Folds [] := by
  unfold transfer
  split
  · exact refused _
  · exact ofExcept_bind fun _ _ => ofExcept_bind fun _ _ => modified _

theorem folds_copyToStencil (args : List Expr) : (copyToStencil args).Folds [] := by
  unfold copyToStencil
  split
  · exact refused _
  · exact ofExcept_bind fun _ _ => modified _

theorem foldsBy_emitter (config : Config) : (emitter config).FoldsBy false where
  letEnv env value := .letEnv _ env value
  allocateEnv env name extents :=
    ⟨extents, List.Subset.refl _, (FoldsTo.recordAllocation env.sizes name extents).map _⟩
  region {name body write} isRegion env := by
    obtain ⟨target, isTarget, rfl⟩ := Option.map_eq_some_iff.mp isRegion
    simpa [emitter, isTarget] using folds_lowerRegion config target body env
  noRegion noRegion := by
    simp [emitter, Option.map_eq_none_iff.mp noRegion]
  intrinsic {value write} isIntrinsic := by
    unfold emitter intrinsic? at isIntrinsic
    dsimp only at isIntrinsic
    split at isIntrinsic
    · split at isIntrinsic
      · cases isIntrinsic
        exact folds_transfer _
      · split at isIntrinsic
        · cases isIntrinsic
          exact folds_copyToStencil _
        · cases isIntrinsic
    · cases isIntrinsic

theorem folds_emitPipeline (config : Config) (p : Pipeline) :
    (emitPipeline config p).Folds (p.body.foldedParts config.naming false) :=
  (Emitter.folds_indented _ (((foldsBy_emitter config).emit p.body .empty).behind fun _ =>
    Emitter.folds_line _)).behind fun _ => Emitter.folds_line _

end Host

/-- Lowering a pipeline folds the folded parts of its body, wherever they stand. -/
theorem foldsTo_generate (config : Config) (p : Pipeline) :
    FoldsTo (generate config p) (p.body.foldedParts config.naming false) := by
  have ends := Host.folds_emitPipeline config p (.start config) _ rfl
  unfold generate
  generalize Host.emitPipeline config p (.start config) = reached at ends ⊢
  cases ends with
  | own isOwn => cases isOwn
  | ok passed => exact .fit passed.2 _
  | @error stop _ _ stopped =>
    constructor
    · rintro _ ⟨⟩
    · rintro ⟨⟩
      exact stopped rfl

/-- A constant that the tokens of a source form keeps its value under a change of sign. -/
theorem toInt_neg_of_derives {source : String} {ts : List Token}
    (among : ts ⊆ Parser.tokensOf (lex source).tokens) {l : Grammar.Level} {value : Int64}
    {type : ScalarType} (derived : l.Derives ts (.int value type)) :
    (-value).toInt = -value.toInt := by
  have isFormed := derived.formed fun t isToken => admissible_lex (among isToken)
  cases isFormed with
  | int isAbove => exact toInt_neg_of_minValue_lt isAbove

/-- A compilation stops without a report exactly when nothing was reported and some folded part of
the pipeline contains a division whose quotient no word holds. The parser, which changes the signs
of constants, never overflows. -/
theorem compile_overflow_iff (config : Config) (source : String) :
    (compile config source = .error .overflow ↔
      (∀ phase diagnostics, compile config source ≠ .error (.reported phase diagnostics)) ∧
        ∃ p, (parse source).pipeline = some p ∧
          ∃ e ∈ p.body.foldedParts config.naming false, e.Overflows) ∧
      ∀ (ts : List Token) (l : Grammar.Level) (value : Int64) (type : ScalarType),
        ts ⊆ Parser.tokensOf (lex source).tokens → l.Derives ts (.int value type) →
        (-value).toInt = -value.toInt := by
  refine ⟨⟨fun stopped => ?_, fun ⟨noReport, p, isParsed, overflows⟩ => ?_⟩,
    fun _ _ _ _ among derived => toInt_neg_of_derives among derived⟩
  · rcases compile_cases config source with
      ⟨_, _, reported⟩ | ⟨p, isParsed, ⟨isOverflow, _⟩ | ⟨_, -, -, succeeded⟩⟩
    · rw [reported] at stopped
      cases stopped
    · refine ⟨fun phase diagnostics => ?_, p, by rw [isParsed],
        (foldsTo_generate config p).of_overflow isOverflow⟩
      rw [stopped]
      exact fun reported => by cases reported
    · rw [succeeded] at stopped
      cases stopped
  · rcases compile_cases config source with
      ⟨_, _, reported⟩ | ⟨q, isSame, ⟨_, stopped⟩ | ⟨_, -, isGenerated, _⟩⟩
    · exact absurd reported (noReport _ _)
    · exact stopped
    · rw [isSame] at isParsed
      cases isParsed
      obtain ⟨e, membership, isOverflow⟩ := overflows
      exact absurd isOverflow ((foldsTo_generate config p).of_ok isGenerated e membership)

/-- The greatest constant behind a sign is a phrase whose own sign can change. -/
theorem compile_overflow_iff_signedSource :
    let ts : List Token := [.symbol .minus, .int Int64.maxValue]
    ts ⊆ Parser.tokensOf (lex signedSource).tokens ∧
      Grammar.Level.signed.Derives ts (.int (-Int64.maxValue) .default) ∧
      (- -Int64.maxValue).toInt = -(-Int64.maxValue).toInt := by
  intro ts
  have among : ts ⊆ Parser.tokensOf (lex signedSource).tokens := by decide +kernel
  have derived : Grammar.Level.signed.Derives ts (.int (-Int64.maxValue) .default) :=
    .minus (.operand (by decide) .int) .int
  exact ⟨among, derived,
    (compile_overflow_iff .standard signedSource).2 ts _ _ _ among derived⟩

def leastOverMinusOne : Expr :=
  .binary .div (.binary .sub (.int (-Int64.maxValue) .default) (.ofInt 1)) (.int (-1) .default)

def leastOverMinusOneSource : String :=
  "func f() \x7b allocate tmp<int32>[(-9223372036854775807 - 1) / -1] \x7b \x7d \x7d"

open Grammar in
theorem parse_leastOverMinusOneSource :
    parse leastOverMinusOneSource =
      ⟨some ⟨"f", [], .allocate "tmp" .default [leastOverMinusOne] .noOp⟩, []⟩ := by
  have isLiteral (value : Int64) : Level.signed.Derives [.int value] (.ofInt value) :=
    .operand (by decide) .int
  have isMinus : (.minus, .sub) ∈ Level.sum.operators := by decide
  have isLeast : Level.sum.Derives _ (.binary .sub (.int (-Int64.maxValue) .default) (.ofInt 1)) :=
    .binary isMinus (((isLiteral _).minus .int).loosen (by decide))
      ((isLiteral _).loosen (by decide))
  have isSlash : (.slash, .div) ∈ Level.product.operators := by decide
  have isQuotient : Level.product.Derives _ leastOverMinusOne :=
    .binary isSlash ((Level.Derives.parens (isLeast.loosen (by decide))).loosen (by decide))
      ((isLiteral _).minus .int)
  have areExtents : ∀ extent ∈ [Piece.mk _ leastOverMinusOne],
      IsExpr extent.tokens extent.value :=
    List.forall_mem_singleton.mpr (isQuotient.loosen (by decide))
  have isType : ScalarType.ofKeyword? "int32" = some .default := rfl
  have isStmt : IsStmt IsBlock _ (.allocate "tmp" .default [leastOverMinusOne] .noOp) :=
    .allocate isType (List.cons_ne_nil _ _) areExtents (.mk 0 (List.forall_mem_nil _) .empty)
  have areItems : ∀ item ∈ [Piece.mk _ (.allocate "tmp" .default [leastOverMinusOne] .noOp)],
      IsItem IsBlock item.tokens item.value :=
    List.forall_mem_singleton.mpr (.mk 0 isStmt)
  have isPipeline : IsPipeline _ ⟨"f", [], .allocate "tmp" .default [leastOverMinusOne] .noOp⟩ :=
    .mk (List.forall_mem_nil _) .plain (.mk 0 areItems .last)
  have noErrors : (lex leastOverMinusOneSource).errors = [] := by decide +kernel
  rw [parse_of_isPipeline (by decide +kernel) isPipeline, noErrors, List.map_nil]

/-- An allocation whose size is out of range stops the compilation without a report, although the
configuration has no fault. -/
theorem compile_leastOverMinusOne :
    Config.standard.fault? = none ∧
      compile .standard leastOverMinusOneSource = .error .overflow := by
  refine ⟨rfl, ?_⟩
  rw [compile, parse_leastOverMinusOneSource]
  rfl

end StreamSynth
