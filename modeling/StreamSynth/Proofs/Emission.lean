import StreamSynth.Emit.Stmt

/-!
# Successful emission as a relation

`Writes` relates a statement to the states before and after it is written without an error, one
rule for each way in which a statement can be written. It says the same as `emit` does when it
succeeds, and proofs about whole runs go by induction on it.
-/

namespace StreamSynth

namespace Emission

variable {σ α β : Type} {before after : σ} {b : β}

theorem bind_eq_ok_iff {first : Emission σ α} {next : α → Emission σ β} :
    (first >>= next) before = .ok b after ↔
      ∃ a middle, first before = .ok a middle ∧ next a middle = .ok b after := by
  change EStateM.bind first next before = _ ↔ _
  rw [EStateM.bind]
  cases first before with
  | ok value state =>
    constructor
    · exact fun succeeded => ⟨value, state, rfl, succeeded⟩
    · rintro ⟨_, _, ⟨⟩, succeeded⟩
      exact succeeded
  | error error state => simp

theorem pure_eq_ok_iff {a b : α} :
    (pure a : Emission σ α) before = .ok b after ↔ a = b ∧ before = after := by
  change EStateM.Result.ok a before = _ ↔ _
  simp

theorem throw_ne_ok {stop : Stop} {a : α} :
    (throw stop : Emission σ α) before = .ok a after ↔ False := by
  change EStateM.Result.error stop before = _ ↔ _
  simp

theorem modify_eq_ok_iff {change : σ → σ} {u : Unit} :
    (modify change : Emission σ Unit) before = .ok u after ↔ change before = after := by
  change EStateM.Result.ok () (change before) = _ ↔ _
  simp

theorem modify_bind_eq_ok_iff {change : σ → σ} {next : Unit → Emission σ β} :
    (modify change >>= next) before = .ok b after ↔ next () (change before) = .ok b after := by
  simp only [bind_eq_ok_iff, modify_eq_ok_iff]
  constructor
  · rintro ⟨_, _, rfl, succeeded⟩
    exact succeeded
  · exact fun succeeded => ⟨(), _, rfl, succeeded⟩

theorem ofExcept_bind_eq_ok_iff {result : Except LoweringError α} {next : α → Emission σ β} :
    (Emission.ofExcept result >>= next) before = .ok b after ↔
      ∃ a, result = .ok a ∧ next a before = .ok b after := by
  cases result <;> simp [bind_eq_ok_iff, Emission.ofExcept, throw_ne_ok]

theorem ofStop_bind_eq_ok_iff {result : Except Stop α} {next : α → Emission σ β} :
    (ofStop result >>= next) before = .ok b after ↔
      ∃ a, result = .ok a ∧ next a before = .ok b after := by
  cases result <;> simp [bind_eq_ok_iff, ofStop, throw_ne_ok]

theorem ofFold_bind_eq_ok_iff {result : Option α} {next : α → Emission σ β} :
    (ofFold result >>= next) before = .ok b after ↔
      ∃ a, result = some a ∧ next a before = .ok b after := by
  cases result <;> simp [bind_eq_ok_iff, ofFold, throw_ne_ok]

end Emission

namespace Emitter

variable {σ : Type} (e : Emitter σ)

def put (text : String) (state : σ) : σ := e.onWriter (·.line text) state

def enter (opening : String) (state : σ) : σ := e.onWriter Writer.indent (e.put opening state)

def leave (state : σ) : σ := e.onWriter Writer.dedent state

def declared (type : StencilType) (name : String) (state : σ) : σ :=
  e.onWriter (·.lineAll ((type.generated ++ " " ++ identifier name ++ ";") ::
    type.pragmas (identifier name))) state

open Emission

variable {e} {before after : σ}

theorem line_eq_ok_iff {text : String} {u : Unit} :
    e.line text before = .ok u after ↔ e.put text before = after := modify_eq_ok_iff

theorem line_bind_eq_ok_iff {β : Type} {b : β} {text : String} {next : Unit → Emission σ β} :
    (e.line text >>= next) before = .ok b after ↔ next () (e.put text before) = .ok b after :=
  modify_bind_eq_ok_iff

theorem declare_bind_eq_ok_iff {β : Type} {b : β} {type : StencilType} {name : String}
    {next : Unit → Emission σ β} :
    (e.declare type name >>= next) before = .ok b after ↔
      next () (e.declared type name before) = .ok b after := modify_bind_eq_ok_iff

theorem indented_bind_eq_ok_iff {β : Type} {b : β} {opening : String} {body : Emission σ Unit}
    {next : Unit → Emission σ β} :
    (e.indented opening body >>= next) before = .ok b after ↔
      ∃ inside, body (e.enter opening before) = .ok () inside ∧
        next () (e.leave inside) = .ok b after := by
  simp only [indented, bind_eq_ok_iff, line_eq_ok_iff, modify_eq_ok_iff]
  constructor
  · rintro ⟨_, _, ⟨_, _, rfl, _, _, rfl, _, inside, written, rfl⟩, succeeded⟩
    exact ⟨inside, written, succeeded⟩
  · rintro ⟨inside, written, succeeded⟩
    exact ⟨(), _, ⟨(), _, rfl, (), _, rfl, (), inside, written, rfl⟩, succeeded⟩

variable (e)

inductive Writes : Stmt → Env → σ → σ → Prop
  | letIn {name value body env inner printed before after} :
      e.letEnv env value = .ok inner → value.print = .ok printed →
      Writes body inner (e.put (letLine name value.type printed) before) after →
      Writes (.letIn name value body) env before after
  | assert {condition message env printed before} :
      condition.print = .ok printed →
      Writes (.assert condition message) env before
        (e.put ("assert(" ++ printed ++ " && " ++ quoted message ++ ");") before)
  | region {name body env write before after} :
      e.region? name body = some write → write env before = .ok () after →
      Writes (.produce name body) env before after
  | produce {name body env before after} :
      e.region? name body = none → Writes body env (e.put ("// produce " ++ name) before) after →
      Writes (.produce name body) env before after
  | consume {name body env before after} :
      Writes body env (e.put ("// consume " ++ name) before) after →
      Writes (.consume name body) env before after
  | loop {name min extent body env low size before inside} :
      min.print = .ok low → extent.print = .ok size →
      Writes body env (e.enter (loopLine name low size) before) inside →
      Writes (.loop name min extent body) env before (e.put "\x7d" (e.leave inside))
  | store {name value index env place printed before} :
      index.print = .ok place → value.print = .ok printed →
      Writes (.store name value index) env before
        (e.put (identifier name ++ "[" ++ place ++ "] = " ++ printed ++ ";") before)
  | provide {name value args env place printed before} :
      Expr.printArgs args = .ok place → value.print = .ok printed →
      Writes (.provide name value args) env before
        (e.put (identifier name ++ "(" ++ place ++ ") = " ++ printed ++ ";") before)
  | allocateArray {name type extents body env inner size constant before after} :
      e.allocateEnv env name extents = .ok inner → Expr.product extents = some size →
      size.int? = some constant →
      Writes body inner (e.put (arrayLine type name constant) before) after →
      Writes (.allocate name type extents body) env before after
  | allocateHeap {name type extents body env inner size printed before after} :
      e.allocateEnv env name extents = .ok inner → Expr.product extents = some size →
      size.int? = none → size.print = .ok printed →
      Writes body inner
        (e.put (newLine type name printed) (e.onWriter (·.allocate name) before)) after →
      Writes (.allocate name type extents body) env before after
  | freeStream {name env before} :
      e.naming.isStream name = true → Writes (.free name) env before before
  | free {name env before} :
      e.naming.isStream name = false →
      Writes (.free name) env before
        (e.onWriter (·.release name ("delete[] " ++ identifier name ++ ";")) before)
  | realizeStream {name type bounds body env stencil before after} :
      e.naming.isStream name = true →
      StencilType.ofBounds .streaming type bounds e.streamDepth = .ok stencil →
      Writes body { env with stencils := env.stencils.push name stencil }
        (e.declared stencil name before) after →
      Writes (.realize name type bounds body) env before after
  | realizeStencil {name type bounds body env stencil before after} :
      e.naming.isStream name = false → e.naming.isStencil name = true →
      StencilType.ofBounds .unpacked type bounds 0 = .ok stencil →
      Writes body { env with stencils := env.stencils.push name stencil }
        (e.declared stencil name before) after →
      Writes (.realize name type bounds body) env before after
  | realizeArray {name type bounds body env size constant before after} :
      e.naming.isStream name = false → e.naming.isStencil name = false →
      Expr.product (bounds.map Bound.extent) = some size → size.int? = some constant →
      Writes body env (e.put (arrayLine type name constant) before) after →
      Writes (.realize name type bounds body) env before after
  | block {first rest env before middle after} :
      e.isDrain first = .ok false → Writes first env before middle →
      Writes rest env middle after → Writes (.block first rest) env before after
  | drain {first rest env before middle after} :
      e.isDrain first = .ok true → e.isDrain rest.leading = .ok false →
      Writes rest env before middle → Writes first env middle after →
      Writes (.block first rest) env before after
  | ifThen {condition thenCase env printed before inside} :
      condition.print = .ok printed →
      Writes thenCase env (e.enter ("if (" ++ printed ++ ") \x7b") before) inside →
      Writes (.ifThen condition thenCase) env before (e.put "\x7d" (e.leave inside))
  | ifThenElse {condition thenCase elseCase env printed before inThen inElse} :
      condition.print = .ok printed →
      Writes thenCase env (e.enter ("if (" ++ printed ++ ") \x7b") before) inThen →
      Writes elseCase env (e.enter "\x7d else \x7b" (e.leave inThen)) inElse →
      Writes (.ifThenElse condition thenCase elseCase) env before
        (e.put "\x7d" (e.leave inElse))
  | intrinsic {value env write before after} :
      e.intrinsic? value = some write → write before = .ok () after →
      Writes (.evaluate value) env before after
  | constant {value env before} :
      e.intrinsic? value = none → value.int?.isSome = true →
      Writes (.evaluate value) env before before
  | evaluate {value env printed before} :
      e.intrinsic? value = none → value.int?.isSome = false → value.print = .ok printed →
      Writes (.evaluate value) env before (e.put (printed ++ ";") before)

variable {e}

theorem Writes.of_emit {s : Stmt} {env : Env} {before after : σ}
    (succeeded : e.emit s env before = .ok () after) : e.Writes s env before after := by
  induction s generalizing env before after with
  | letIn name value body bodyWrites =>
    simp only [emit, ofStop_bind_eq_ok_iff, ofExcept_bind_eq_ok_iff, line_bind_eq_ok_iff]
      at succeeded
    obtain ⟨inner, known, printed, isPrinted, written⟩ := succeeded
    exact .letIn known isPrinted (bodyWrites written)
  | assert condition message =>
    simp only [emit, ofExcept_bind_eq_ok_iff, line_eq_ok_iff] at succeeded
    obtain ⟨printed, isPrinted, rfl⟩ := succeeded
    exact .assert isPrinted
  | produce name body bodyWrites =>
    cases isRegion : e.region? name body with
    | some write =>
      simp only [emit, isRegion] at succeeded
      exact .region isRegion succeeded
    | none =>
      simp only [emit, isRegion, line_bind_eq_ok_iff] at succeeded
      exact .produce isRegion (bodyWrites succeeded)
  | consume name body bodyWrites =>
    simp only [emit, line_bind_eq_ok_iff] at succeeded
    exact .consume (bodyWrites succeeded)
  | loop name min extent body bodyWrites =>
    simp only [emit, ofExcept_bind_eq_ok_iff, indented_bind_eq_ok_iff, line_eq_ok_iff] at succeeded
    obtain ⟨low, lowPrinted, size, sizePrinted, inside, written, rfl⟩ := succeeded
    exact .loop lowPrinted sizePrinted (bodyWrites written)
  | store name value index =>
    simp only [emit, ofExcept_bind_eq_ok_iff, line_eq_ok_iff] at succeeded
    obtain ⟨place, placePrinted, printed, isPrinted, rfl⟩ := succeeded
    exact .store placePrinted isPrinted
  | provide name value args =>
    simp only [emit, ofExcept_bind_eq_ok_iff, line_eq_ok_iff] at succeeded
    obtain ⟨place, placePrinted, printed, isPrinted, rfl⟩ := succeeded
    exact .provide placePrinted isPrinted
  | allocate name type extents body bodyWrites =>
    simp only [emit, ofStop_bind_eq_ok_iff, ofFold_bind_eq_ok_iff] at succeeded
    obtain ⟨inner, known, size, isSize, succeeded⟩ := succeeded
    cases isConstant : size.int? with
    | some constant =>
      simp only [isConstant, line_bind_eq_ok_iff] at succeeded
      exact .allocateArray known isSize isConstant (bodyWrites succeeded)
    | none =>
      simp only [isConstant, modify_bind_eq_ok_iff, ofExcept_bind_eq_ok_iff, line_bind_eq_ok_iff]
        at succeeded
      obtain ⟨printed, isPrinted, written⟩ := succeeded
      exact .allocateHeap known isSize isConstant isPrinted (bodyWrites written)
  | free name =>
    cases isStream : e.naming.isStream name with
    | true =>
      simp only [emit, isStream, if_true, pure_eq_ok_iff, true_and] at succeeded
      exact succeeded ▸ .freeStream isStream
    | false =>
      simp only [emit, isStream, Bool.false_eq_true, if_false, modify_eq_ok_iff] at succeeded
      exact succeeded ▸ .free isStream
  | realize name type bounds body bodyWrites =>
    cases isStream : e.naming.isStream name with
    | true =>
      simp only [emit, isStream, if_true, ofStop_bind_eq_ok_iff, declare_bind_eq_ok_iff]
        at succeeded
      obtain ⟨stencil, isType, written⟩ := succeeded
      exact .realizeStream isStream isType (bodyWrites written)
    | false =>
      cases isStencil : e.naming.isStencil name with
      | true =>
        simp only [emit, isStream, isStencil, Bool.false_eq_true, if_false, if_true,
          ofStop_bind_eq_ok_iff, declare_bind_eq_ok_iff] at succeeded
        obtain ⟨stencil, isType, written⟩ := succeeded
        exact .realizeStencil isStream isStencil isType (bodyWrites written)
      | false =>
        simp only [emit, isStream, isStencil, Bool.false_eq_true, if_false,
          ofFold_bind_eq_ok_iff] at succeeded
        obtain ⟨size, isSize, succeeded⟩ := succeeded
        cases isConstant : size.int? with
        | none => simp only [isConstant, throw_ne_ok] at succeeded
        | some constant =>
          simp only [isConstant, line_bind_eq_ok_iff] at succeeded
          exact .realizeArray isStream isStencil isSize isConstant (bodyWrites succeeded)
  | block first rest firstWrites restWrites =>
    simp only [emit, ofExcept_bind_eq_ok_iff] at succeeded
    obtain ⟨drains, isDrain, succeeded⟩ := succeeded
    cases drains with
    | true =>
      simp only [if_true, ofExcept_bind_eq_ok_iff] at succeeded
      obtain ⟨nextDrains, nextIsDrain, succeeded⟩ := succeeded
      cases nextDrains with
      | true =>
        simp only [if_true, bind_eq_ok_iff, throw_ne_ok, false_and, exists_false] at succeeded
      | false =>
        simp only [Bool.false_eq_true, if_false, bind_eq_ok_iff] at succeeded
        obtain ⟨_, middle, restWritten, firstWritten⟩ := succeeded
        exact .drain isDrain nextIsDrain (restWrites restWritten) (firstWrites firstWritten)
    | false =>
      simp only [Bool.false_eq_true, if_false, bind_eq_ok_iff] at succeeded
      obtain ⟨_, middle, firstWritten, restWritten⟩ := succeeded
      exact .block isDrain (firstWrites firstWritten) (restWrites restWritten)
  | ifThen condition thenCase thenWrites =>
    simp only [emit, ofExcept_bind_eq_ok_iff, indented_bind_eq_ok_iff, line_eq_ok_iff] at succeeded
    obtain ⟨printed, isPrinted, inside, written, rfl⟩ := succeeded
    exact .ifThen isPrinted (thenWrites written)
  | ifThenElse condition thenCase elseCase thenWrites elseWrites =>
    simp only [emit, ofExcept_bind_eq_ok_iff, indented_bind_eq_ok_iff, line_eq_ok_iff] at succeeded
    obtain ⟨printed, isPrinted, inThen, thenWritten, inElse, elseWritten, rfl⟩ := succeeded
    exact .ifThenElse isPrinted (thenWrites thenWritten) (elseWrites elseWritten)
  | evaluate value =>
    cases isIntrinsic : e.intrinsic? value with
    | some write =>
      simp only [emit, isIntrinsic] at succeeded
      exact .intrinsic isIntrinsic succeeded
    | none =>
      cases isConstant : value.int?.isSome with
      | true =>
        simp only [emit, isIntrinsic, isConstant, if_true, pure_eq_ok_iff, true_and] at succeeded
        exact succeeded ▸ .constant isIntrinsic isConstant
      | false =>
        simp only [emit, isIntrinsic, isConstant, Bool.false_eq_true, if_false,
          ofExcept_bind_eq_ok_iff, line_eq_ok_iff] at succeeded
        obtain ⟨printed, isPrinted, rfl⟩ := succeeded
        exact .evaluate isIntrinsic isConstant isPrinted

theorem Writes.emit_eq {s : Stmt} {env : Env} {before after : σ}
    (writes : e.Writes s env before after) : e.emit s env before = .ok () after := by
  induction writes with
  | letIn known isPrinted _ written =>
    simp only [emit, ofStop_bind_eq_ok_iff, ofExcept_bind_eq_ok_iff, line_bind_eq_ok_iff]
    exact ⟨_, known, _, isPrinted, written⟩
  | assert isPrinted =>
    simp only [emit, ofExcept_bind_eq_ok_iff, line_eq_ok_iff]
    exact ⟨_, isPrinted, rfl⟩
  | region isRegion written =>
    simp only [emit, isRegion]
    exact written
  | produce noRegion _ written =>
    simp only [emit, noRegion, line_bind_eq_ok_iff]
    exact written
  | consume _ written =>
    simp only [emit, line_bind_eq_ok_iff]
    exact written
  | loop lowPrinted sizePrinted _ written =>
    simp only [emit, ofExcept_bind_eq_ok_iff, indented_bind_eq_ok_iff, line_eq_ok_iff]
    exact ⟨_, lowPrinted, _, sizePrinted, _, written, rfl⟩
  | store placePrinted isPrinted =>
    simp only [emit, ofExcept_bind_eq_ok_iff, line_eq_ok_iff]
    exact ⟨_, placePrinted, _, isPrinted, rfl⟩
  | provide placePrinted isPrinted =>
    simp only [emit, ofExcept_bind_eq_ok_iff, line_eq_ok_iff]
    exact ⟨_, placePrinted, _, isPrinted, rfl⟩
  | allocateArray known isSize isConstant _ written =>
    simp only [emit, ofStop_bind_eq_ok_iff, ofFold_bind_eq_ok_iff]
    refine ⟨_, known, _, isSize, ?_⟩
    simp only [isConstant, line_bind_eq_ok_iff]
    exact written
  | allocateHeap known isSize notConstant isPrinted _ written =>
    simp only [emit, ofStop_bind_eq_ok_iff, ofFold_bind_eq_ok_iff]
    refine ⟨_, known, _, isSize, ?_⟩
    simp only [notConstant, modify_bind_eq_ok_iff, ofExcept_bind_eq_ok_iff, line_bind_eq_ok_iff]
    exact ⟨_, isPrinted, written⟩
  | freeStream isStream => simp only [emit, isStream, if_true, pure_eq_ok_iff, and_self]
  | free notStream =>
    simp only [emit, notStream, Bool.false_eq_true, if_false, modify_eq_ok_iff]
  | realizeStream isStream isType _ written =>
    simp only [emit, isStream, if_true, ofStop_bind_eq_ok_iff, declare_bind_eq_ok_iff]
    exact ⟨_, isType, written⟩
  | realizeStencil notStream isStencil isType _ written =>
    simp only [emit, notStream, isStencil, Bool.false_eq_true, if_false, if_true,
      ofStop_bind_eq_ok_iff, declare_bind_eq_ok_iff]
    exact ⟨_, isType, written⟩
  | realizeArray notStream notStencil isSize isConstant _ written =>
    simp only [emit, notStream, notStencil, Bool.false_eq_true, if_false, ofFold_bind_eq_ok_iff]
    refine ⟨_, isSize, ?_⟩
    simp only [isConstant, line_bind_eq_ok_iff]
    exact written
  | block notDrain _ _ firstWritten restWritten =>
    simp only [emit, ofExcept_bind_eq_ok_iff]
    refine ⟨_, notDrain, ?_⟩
    simp only [Bool.false_eq_true, if_false, bind_eq_ok_iff]
    exact ⟨_, _, firstWritten, restWritten⟩
  | drain isDrain nextNotDrain _ _ restWritten firstWritten =>
    simp only [emit, ofExcept_bind_eq_ok_iff]
    refine ⟨_, isDrain, ?_⟩
    simp only [if_true, ofExcept_bind_eq_ok_iff]
    refine ⟨_, nextNotDrain, ?_⟩
    simp only [Bool.false_eq_true, if_false, bind_eq_ok_iff]
    exact ⟨_, _, restWritten, firstWritten⟩
  | ifThen isPrinted _ written =>
    simp only [emit, ofExcept_bind_eq_ok_iff, indented_bind_eq_ok_iff, line_eq_ok_iff]
    exact ⟨_, isPrinted, _, written, rfl⟩
  | ifThenElse isPrinted _ _ thenWritten elseWritten =>
    simp only [emit, ofExcept_bind_eq_ok_iff, indented_bind_eq_ok_iff, line_eq_ok_iff]
    exact ⟨_, isPrinted, _, thenWritten, _, elseWritten, rfl⟩
  | intrinsic isIntrinsic written =>
    simp only [emit, isIntrinsic]
    exact written
  | constant noIntrinsic isConstant =>
    simp only [emit, noIntrinsic, isConstant, if_true, pure_eq_ok_iff, and_self]
  | evaluate noIntrinsic notConstant isPrinted =>
    simp only [emit, noIntrinsic, notConstant, Bool.false_eq_true, if_false,
      ofExcept_bind_eq_ok_iff, line_eq_ok_iff]
    exact ⟨_, isPrinted, rfl⟩

theorem emit_eq_ok_iff {s : Stmt} {env : Env} {before after : σ} :
    e.emit s env before = .ok () after ↔ e.Writes s env before after :=
  ⟨Writes.of_emit, Writes.emit_eq⟩

end Emitter

end StreamSynth
