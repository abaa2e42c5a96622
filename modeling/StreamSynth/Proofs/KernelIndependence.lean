import StreamSynth.Proofs.DriverCalls

/-!
# What a kernel owes to those before it

All kernels are written by one writer, which carries the heap arrays that a kernel leaves live to
the kernels behind it. A statement is written by the same changes to any writer, so two writers
that differ in such arrays alone write the same lines up to the first time that an array is freed
which only one of them knows.
-/

namespace StreamSynth

inductive HeapStep where
  | allocate (name : String)
  | free (name : String)
  deriving DecidableEq

namespace HeapStep

def apply (heap : List String) : HeapStep → List String
  | allocate name => name :: heap
  | free name => heap.erase name

def live (heap : List String) (steps : List HeapStep) : List String := steps.foldl apply heap

def strayFrees (heap : List String) : List HeapStep → List String
  | [] => []
  | allocate name :: steps => strayFrees (name :: heap) steps
  | free name :: steps =>
    if name ∈ heap then strayFrees (heap.erase name) steps else name :: strayFrees heap steps

def lines (level : Nat) (heap : List String) : HeapStep → List Line
  | allocate _ => []
  | free name => if name ∈ heap then [⟨level, "delete[] " ++ identifier name ++ ";"⟩] else []

end HeapStep

/-- The heap arrays that a statement allocates and frees, in program order. An array of constant
size is not on the heap, and a stream is not freed. -/
def Stmt.heapSteps (naming : Naming) : Stmt → List HeapStep
  | .allocate name _ extents body =>
    if ((Expr.product extents).bind Expr.int?).isSome then body.heapSteps naming
    else .allocate name :: body.heapSteps naming
  | .free name => if naming.isStream name then [] else [.free name]
  | .letIn _ _ body | .produce _ body | .consume _ body | .loop _ _ _ body
  | .realize _ _ _ body => body.heapSteps naming
  | .block first rest => first.heapSteps naming ++ rest.heapSteps naming
  | .ifThen _ thenCase => thenCase.heapSteps naming
  | .ifThenElse _ thenCase elseCase => thenCase.heapSteps naming ++ elseCase.heapSteps naming
  | .assert _ _ | .store _ _ _ | .provide _ _ _ | .evaluate _ => []

inductive WriterStep where
  | line (text : String)
  | indent
  | dedent
  | heap (step : HeapStep)

namespace WriterStep

@[simp] def heapSteps : WriterStep → List HeapStep
  | heap step => [step]
  | line _ | indent | dedent => []

def inBlock (opening : String) (steps : List WriterStep) : List WriterStep :=
  line opening :: indent :: (steps ++ [dedent])

@[simp] theorem heapSteps_inBlock (opening : String) (steps : List WriterStep) :
    (inBlock opening steps).flatMap heapSteps = steps.flatMap heapSteps := by
  simp [inBlock]

@[simp] theorem heapSteps_lines (texts : List String) :
    (texts.map line).flatMap heapSteps = [] := by
  induction texts with
  | nil => rfl
  | cons text rest inductionHypothesis => exact inductionHypothesis

def lines (level : Nat) (heap : List String) : List WriterStep → List Line
  | [] => []
  | line text :: steps => ⟨level, text⟩ :: lines level heap steps
  | indent :: steps => lines (level + 1) heap steps
  | dedent :: steps => lines (level - 1) heap steps
  | .heap step :: steps => step.lines level heap ++ lines level (step.apply heap) steps

end WriterStep

namespace Writer

def perform (w : Writer) : WriterStep → Writer
  | .line text => w.line text
  | .indent => w.indent
  | .dedent => w.dedent
  | .heap (.allocate name) => w.allocate name
  | .heap (.free name) => w.release name ("delete[] " ++ identifier name ++ ";")

def performAll (w : Writer) (steps : List WriterStep) : Writer := steps.foldl perform w

@[simp] theorem performAll_append (w : Writer) (first rest : List WriterStep) :
    w.performAll (first ++ rest) = (w.performAll first).performAll rest := List.foldl_append

@[simp] theorem performAll_lines (w : Writer) (texts : List String) :
    w.performAll (texts.map .line) = w.lineAll texts := by
  rw [performAll, List.foldl_map]
  rfl

@[simp] theorem performAll_inBlock (w : Writer) (opening : String) (steps : List WriterStep) :
    w.performAll (WriterStep.inBlock opening steps) =
      ((w.line opening).indent.performAll steps).dedent := by
  simp [performAll, WriterStep.inBlock, perform]

theorem perform_heap (w : Writer) (step : HeapStep) :
    (w.perform (.heap step)).level = w.level ∧
      (w.perform (.heap step)).heap = step.apply w.heap ∧
      (w.perform (.heap step)).lines.toList =
        w.lines.toList ++ step.lines w.level w.heap := by
  cases step with
  | allocate name => simp [perform, allocate, HeapStep.apply, HeapStep.lines]
  | free name =>
    by_cases isLive : name ∈ w.heap
    · simp [perform, release, line, HeapStep.apply, HeapStep.lines, isLive]
    · simp [perform, release, HeapStep.apply, HeapStep.lines, isLive, List.erase_of_not_mem]

theorem heap_performAll (w : Writer) (steps : List WriterStep) :
    (w.performAll steps).heap = HeapStep.live w.heap (steps.flatMap WriterStep.heapSteps) := by
  induction steps generalizing w with
  | nil => rfl
  | cons step rest inductionHypothesis =>
    rw [performAll, List.foldl_cons]
    refine (inductionHypothesis (w.perform step)).trans ?_
    cases step with
    | line text => rfl
    | indent => rfl
    | dedent => rfl
    | heap step => simp [HeapStep.live, (perform_heap w step).2.1]

theorem lines_performAll (w : Writer) (steps : List WriterStep) :
    (w.performAll steps).lines.toList =
      w.lines.toList ++ WriterStep.lines w.level w.heap steps := by
  induction steps generalizing w with
  | nil => simp [performAll, WriterStep.lines]
  | cons step rest inductionHypothesis =>
    rw [performAll, List.foldl_cons]
    refine (inductionHypothesis (w.perform step)).trans ?_
    cases step with
    | line text => simp [perform, line, WriterStep.lines]
    | indent => rfl
    | dedent => rfl
    | heap step =>
      obtain ⟨level_eq, heap_eq, lines_eq⟩ := perform_heap w step
      rw [level_eq, heap_eq, lines_eq, WriterStep.lines, List.append_assoc]

end Writer

namespace WriterStep

/-- A writer that knows more live arrays leaves out no line. -/
theorem lines_sublist (steps : List WriterStep) (level : Nat) (own left : List String) :
    (lines level own steps).Sublist (lines level (own ++ left) steps) := by
  induction steps generalizing level own left with
  | nil => exact .refl _
  | cons step rest inductionHypothesis =>
    cases step with
    | line text => exact (inductionHypothesis level own left).cons_cons _
    | indent => exact inductionHypothesis (level + 1) own left
    | dedent => exact inductionHypothesis (level - 1) own left
    | heap step =>
      cases step with
      | allocate name => exact inductionHypothesis level (name :: own) left
      | free name =>
        simp only [lines, HeapStep.lines, HeapStep.apply, List.mem_append]
        by_cases isOwn : name ∈ own
        · rw [List.erase_append_left _ isOwn, if_pos isOwn, if_pos (.inl isOwn)]
          exact (inductionHypothesis level (own.erase name) left).append_left _
        · rw [List.erase_append_right _ isOwn, if_neg isOwn, List.erase_of_not_mem isOwn]
          exact (inductionHypothesis level own (left.erase name)).trans
            (List.sublist_append_right _ _)

/-- Arrays known in addition change no line as long as none of them is freed by a step for which
no other array is live. -/
theorem lines_append_eq_iff (steps : List WriterStep) (level : Nat) (own left : List String) :
    lines level (own ++ left) steps = lines level own steps ↔
      ∀ name ∈ HeapStep.strayFrees own (steps.flatMap heapSteps), name ∉ left := by
  induction steps generalizing level own with
  | nil => simp [lines, HeapStep.strayFrees]
  | cons step rest inductionHypothesis =>
    cases step with
    | line text =>
      rw [lines, lines, List.cons_inj_right]
      exact inductionHypothesis level own
    | indent => exact inductionHypothesis (level + 1) own
    | dedent => exact inductionHypothesis (level - 1) own
    | heap step =>
      cases step with
      | allocate name => exact inductionHypothesis level (name :: own)
      | free name =>
        simp only [lines, HeapStep.lines, HeapStep.apply, List.mem_append, heapSteps,
          List.flatMap_cons, List.cons_append, List.nil_append, HeapStep.strayFrees]
        by_cases isOwn : name ∈ own
        · rw [List.erase_append_left _ isOwn, if_pos isOwn, if_pos isOwn, if_pos (.inl isOwn),
            List.append_cancel_left_eq]
          exact inductionHypothesis level (own.erase name)
        · rw [List.erase_append_right _ isOwn, if_neg isOwn, if_neg isOwn,
            List.erase_of_not_mem isOwn, List.forall_mem_cons]
          by_cases isLeft : name ∈ left
          · -- The first stray free adds a line that nothing behind it can make up for.
            rw [if_pos (.inr isLeft)]
            have shorter := (lines_sublist rest level own (left.erase name)).length_le
            constructor
            · intro same
              have lengths := congrArg List.length same
              simp only [List.length_append, List.length_singleton, List.nil_append] at lengths
              omega
            · exact fun avoided => absurd isLeft avoided.1
          · rw [if_neg (by simp [isOwn, isLeft]), List.erase_of_not_mem isLeft]
            simpa [isLeft] using inductionHypothesis level own

end WriterStep

theorem length_renderAll_cons (line : Line) (lines : List Line) :
    (renderAll (line :: lines)).length = line.chars.length + 1 + (renderAll lines).length := by
  rw [renderAll, String.length_ofList, List.flatMap_cons, List.length_append, List.length_append,
    renderAll, String.length_ofList]
  rfl

/-- Every line has a line end at least, so lines left out are missing from the text. -/
theorem length_renderAll_of_sublist {few many : List Line} (sublist : few.Sublist many) :
    (renderAll few).length + many.length ≤ (renderAll many).length + few.length := by
  induction sublist with
  | slnil => exact Nat.le_refl _
  | cons line _ inductionHypothesis =>
    rw [length_renderAll_cons, List.length_cons]
    omega
  | cons_cons line _ inductionHypothesis =>
    rw [length_renderAll_cons, length_renderAll_cons, List.length_cons, List.length_cons]
    omega

theorem renderAll_eq_iff_of_sublist {few many : List Line} (sublist : few.Sublist many) :
    renderAll many = renderAll few ↔ many = few := by
  refine ⟨fun same => ?_, congrArg renderAll⟩
  have lengths := length_renderAll_of_sublist sublist
  rw [same] at lengths
  exact (sublist.eq_of_length_le (by omega)).symm

theorem Writer.text_performAll (w : Writer) (steps : List WriterStep) :
    (w.performAll steps).text =
      w.text ++ renderAll (WriterStep.lines w.level w.heap steps) := by
  rw [text_eq_renderAll, text_eq_renderAll, lines_performAll, renderAll_append]

namespace Emitter

variable {naming : Naming} {streamDepth : Nat} {s : Stmt} {env : Env}

/-- The steps that write a statement, whatever the writer holds. -/
structure Script (naming : Naming) (streamDepth : Nat) (s : Stmt) (env : Env)
    (steps : List WriterStep) : Prop where
  writes : ∀ w, (plain naming streamDepth).Writes s env w (w.performAll steps)
  heapSteps_eq : steps.flatMap WriterStep.heapSteps = s.heapSteps naming

def declaration (type : StencilType) (name : String) : List WriterStep :=
  List.map .line ((type.generated ++ " " ++ identifier name ++ ";") ::
    type.pragmas (identifier name))

theorem performAll_declaration (type : StencilType) (name : String) (w : Writer) :
    w.performAll (declaration type name) = (plain naming streamDepth).declared type name w :=
  Writer.performAll_lines w _

theorem Writes.exists_script {before after : Writer}
    (writes : (plain naming streamDepth).Writes s env before after) :
    ∃ steps, Script naming streamDepth s env steps := by
  induction writes with
  | letIn known isPrinted _ body =>
    obtain ⟨steps, script⟩ := body
    exact ⟨.line _ :: steps, fun _ => .letIn known isPrinted (script.writes _),
      script.heapSteps_eq⟩
  | assert isPrinted => exact ⟨[.line _], fun _ => .assert isPrinted, rfl⟩
  | region isRegion _ => cases isRegion
  | produce noRegion _ body =>
    obtain ⟨steps, script⟩ := body
    exact ⟨.line _ :: steps, fun _ => .produce noRegion (script.writes _), script.heapSteps_eq⟩
  | consume _ body =>
    obtain ⟨steps, script⟩ := body
    exact ⟨.line _ :: steps, fun _ => .consume (script.writes _), script.heapSteps_eq⟩
  | @loop name _ _ _ _ low size _ _ lowPrinted sizePrinted _ body =>
    obtain ⟨steps, script⟩ := body
    refine ⟨WriterStep.inBlock (loopLine name low size) steps ++ [.line "\x7d"], fun w => ?_, ?_⟩
    · rw [Writer.performAll_append, Writer.performAll_inBlock]
      exact .loop lowPrinted sizePrinted (script.writes _)
    · simpa [Stmt.heapSteps] using script.heapSteps_eq
  | store placePrinted isPrinted =>
    exact ⟨[.line _], fun _ => .store placePrinted isPrinted, rfl⟩
  | provide placePrinted isPrinted =>
    exact ⟨[.line _], fun _ => .provide placePrinted isPrinted, rfl⟩
  | allocateArray known isSize isConstant _ body =>
    obtain ⟨steps, script⟩ := body
    refine ⟨.line _ :: steps, fun _ => .allocateArray known isSize isConstant (script.writes _), ?_⟩
    simpa [Stmt.heapSteps, isSize, isConstant] using script.heapSteps_eq
  | allocateHeap known isSize notConstant isPrinted _ body =>
    obtain ⟨steps, script⟩ := body
    refine ⟨.heap (.allocate _) :: .line _ :: steps,
      fun _ => .allocateHeap known isSize notConstant isPrinted (script.writes _), ?_⟩
    simpa [Stmt.heapSteps, isSize, notConstant] using script.heapSteps_eq
  | freeStream isStream =>
    exact ⟨[], fun _ => .freeStream isStream, (if_pos isStream).symm⟩
  | free notStream =>
    exact ⟨[.heap (.free _)], fun _ => .free notStream,
      (if_neg (Bool.eq_false_iff.mp notStream)).symm⟩
  | @realizeStream name _ _ _ _ stencil _ _ isStream isType _ body =>
    obtain ⟨steps, script⟩ := body
    refine ⟨declaration stencil name ++ steps, fun w => ?_, ?_⟩
    · rw [Writer.performAll_append, performAll_declaration]
      exact .realizeStream isStream isType (script.writes _)
    · simpa [Stmt.heapSteps, declaration] using script.heapSteps_eq
  | @realizeStencil name _ _ _ _ stencil _ _ notStream isStencil isType _ body =>
    obtain ⟨steps, script⟩ := body
    refine ⟨declaration stencil name ++ steps, fun w => ?_, ?_⟩
    · rw [Writer.performAll_append, performAll_declaration]
      exact .realizeStencil notStream isStencil isType (script.writes _)
    · simpa [Stmt.heapSteps, declaration] using script.heapSteps_eq
  | realizeArray notStream notStencil isSize isConstant _ body =>
    obtain ⟨steps, script⟩ := body
    exact ⟨.line _ :: steps,
      fun _ => .realizeArray notStream notStencil isSize isConstant (script.writes _),
      script.heapSteps_eq⟩
  | block notDrain _ _ first rest =>
    obtain ⟨firstSteps, firstScript⟩ := first
    obtain ⟨restSteps, restScript⟩ := rest
    refine ⟨firstSteps ++ restSteps, fun w => ?_, ?_⟩
    · rw [Writer.performAll_append]
      exact .block notDrain (firstScript.writes _) (restScript.writes _)
    · simp [Stmt.heapSteps, firstScript.heapSteps_eq, restScript.heapSteps_eq]
  | drain isDrain _ _ _ _ _ => cases isDrain
  | @ifThen _ _ _ printed _ _ isPrinted _ thenCase =>
    obtain ⟨steps, script⟩ := thenCase
    refine ⟨WriterStep.inBlock ("if (" ++ printed ++ ") \x7b") steps ++ [.line "\x7d"],
      fun w => ?_, ?_⟩
    · rw [Writer.performAll_append, Writer.performAll_inBlock]
      exact .ifThen isPrinted (script.writes _)
    · simpa [Stmt.heapSteps] using script.heapSteps_eq
  | @ifThenElse _ _ _ _ printed _ _ _ isPrinted _ _ thenCase elseCase =>
    obtain ⟨thenSteps, thenScript⟩ := thenCase
    obtain ⟨elseSteps, elseScript⟩ := elseCase
    refine ⟨WriterStep.inBlock ("if (" ++ printed ++ ") \x7b") thenSteps ++
      (WriterStep.inBlock "\x7d else \x7b" elseSteps ++ [.line "\x7d"]), fun w => ?_, ?_⟩
    · simp only [Writer.performAll_append, Writer.performAll_inBlock]
      exact .ifThenElse isPrinted (thenScript.writes _) (elseScript.writes _)
    · simp [Stmt.heapSteps, thenScript.heapSteps_eq, elseScript.heapSteps_eq]
  | intrinsic isIntrinsic _ => cases isIntrinsic
  | constant noIntrinsic isConstant =>
    exact ⟨[], fun _ => .constant noIntrinsic isConstant, rfl⟩
  | evaluate noIntrinsic notConstant isPrinted =>
    exact ⟨[.line _], fun _ => .evaluate noIntrinsic notConstant isPrinted, rfl⟩

end Emitter

structure KernelCall where
  name : String
  args : List Argument
  body : Stmt

namespace KernelCall

def emit (config : Config) (call : KernelCall) : Emission KernelFiles Unit :=
  KernelFiles.emitKernel config call.name call.args call.body

def emitAll (config : Config) (calls : List KernelCall) : Emission KernelFiles Unit :=
  calls.forM (emit config)

def prototype (call : KernelCall) : String :=
  KernelFiles.signature call.name call.args ++ ";"

def heapSteps (config : Config) (call : KernelCall) : List HeapStep :=
  call.body.heapSteps config.naming

variable {config : Config} {call : KernelCall} {before after : KernelFiles}

/-- A kernel that is written once is written by the same steps to any files. -/
theorem emit_steps (succeeded : call.emit config before = .ok () after) :
    ∃ steps : List WriterStep, steps.flatMap WriterStep.heapSteps = call.heapSteps config ∧
      ∀ files, call.emit config files =
          .ok () ⟨files.header.line call.prototype, files.source.performAll steps⟩ ∧
        (files.source.performAll steps).level = files.source.level := by
  obtain ⟨_, written, -⟩ := KernelFiles.emitKernel_eq_ok_iff.mp succeeded
  obtain ⟨steps, script⟩ := written.exists_script
  let opening := KernelFiles.signature call.name call.args ++ " \x7b"
  let directives := (KernelFiles.directives config call.args).map WriterStep.line
  refine ⟨WriterStep.inBlock opening (directives ++ steps) ++ List.map .line ["\x7d", ""], ?_, ?_⟩
  · simpa [directives, heapSteps] using script.heapSteps_eq
  intro files
  rw [Writer.performAll_append, Writer.performAll_inBlock, Writer.performAll_append,
    Writer.performAll_lines, Writer.performAll_lines]
  have body := script.writes ((files.source.line opening).indent.lineAll
    (KernelFiles.directives config call.args))
  refine ⟨KernelFiles.emitKernel_eq_ok_iff.mpr ⟨_, body, rfl⟩, ?_⟩
  obtain ⟨lines, grows⟩ := body.plain_grows
  rw [Writer.lineAll_level]
  exact ((Writer.Grows.lineAll _ _).trans grows).block.level_eq

structure Written (config : Config) (calls : List KernelCall) (files : KernelFiles) : Prop where
  header_level : files.header.level = 0
  source_level : files.source.level = 0
  heap_eq : files.source.heap = HeapStep.live [] (calls.flatMap (heapSteps config))

theorem written_start (config : Config) : Written config [] (.start config) where
  header_level := Writer.lineAll_level _ _
  source_level := Writer.lineAll_level _ _
  heap_eq := rfl

theorem Written.emit {calls : List KernelCall} (written : Written config calls before)
    (succeeded : call.emit config before = .ok () after) :
    Written config (calls ++ [call]) after := by
  obtain ⟨steps, isHeap, writes⟩ := emit_steps succeeded
  obtain ⟨emitted, level⟩ := writes before
  cases succeeded.symm.trans emitted
  refine ⟨written.header_level, level.trans written.source_level, ?_⟩
  rw [Writer.heap_performAll, isHeap, written.heap_eq, List.flatMap_append, HeapStep.live,
    HeapStep.live, HeapStep.live, List.foldl_append]
  simp

theorem Written.emitAll {calls more : List KernelCall} (written : Written config calls before)
    (succeeded : KernelCall.emitAll config more before = .ok () after) :
    Written config (calls ++ more) after := by
  induction more generalizing calls before with
  | nil =>
    obtain ⟨-, rfl⟩ := Emission.pure_eq_ok_iff.mp succeeded
    simpa using written
  | cons call more inductionHypothesis =>
    obtain ⟨_, middle, first, rest⟩ := Emission.bind_eq_ok_iff.mp succeeded
    simpa using inductionHypothesis (written.emit first) rest

/-- Behind other kernels a kernel is written as it is written first, up to the arrays that those
kernels left live: its text is the same exactly when it frees none of their names at a place where
it has no live array of that name itself. -/
theorem emit_independent_iff {earlier : List KernelCall}
    (emitted : emitAll config earlier (.start config) = .ok () before)
    (succeeded : call.emit config before = .ok () after) :
    ∃ first text alone, call.emit config (.start config) = .ok () first ∧
      after.header.text = before.header.text ++ (call.prototype ++ "\n") ∧
      first.header.text = (KernelFiles.start config).header.text ++ (call.prototype ++ "\n") ∧
      after.source.text = before.source.text ++ text ∧
      first.source.text = (KernelFiles.start config).source.text ++ alone ∧
      (text = alone ↔ ∀ name ∈ HeapStep.strayFrees [] (call.heapSteps config),
        name ∉ HeapStep.live [] (earlier.flatMap (heapSteps config))) := by
  have written : Written config earlier before := (written_start config).emitAll emitted
  obtain ⟨steps, isHeap, writes⟩ := emit_steps succeeded
  cases succeeded.symm.trans (writes before).1
  have prototypes (files : KernelFiles) (isFlush : files.header.level = 0) :
      (files.header.line call.prototype).text = files.header.text ++ (call.prototype ++ "\n") := by
    refine (Writer.text_performAll files.header [.line call.prototype]).trans ?_
    simp [isFlush, WriterStep.lines, renderAll_singleton, Line.render]
  refine ⟨_, _, _, (writes (.start config)).1, prototypes before written.header_level,
    prototypes _ (written_start config).header_level, Writer.text_performAll _ _,
    Writer.text_performAll _ _, ?_⟩
  rw [written.source_level, written.heap_eq, (written_start config).source_level,
    (written_start config).heap_eq, ← isHeap]
  exact (renderAll_eq_iff_of_sublist (WriterStep.lines_sublist steps 0 [] _)).trans
    (WriterStep.lines_append_eq_iff steps 0 [] _)

def leaveTmp : KernelCall :=
  ⟨"leave", [⟨"n", .default, .scalar⟩],
    .allocate "tmp" .default [.var "n" .default] (.evaluate (.ofInt 0))⟩

def freeOwnTmp : KernelCall :=
  ⟨"own", [⟨"n", .default, .scalar⟩],
    .allocate "tmp" .default [.var "n" .default] (.free "tmp")⟩

def freeLocalTmp : KernelCall :=
  ⟨"local", [], .allocate "tmp" .default [.ofInt 4] (.free "tmp")⟩

theorem emit_independent_freeOwnTmp :
    ∃ before after first text, emitAll .standard [leaveTmp] (.start .standard) = .ok () before ∧
      freeOwnTmp.emit .standard before = .ok () after ∧
      freeOwnTmp.emit .standard (.start .standard) = .ok () first ∧
      "tmp" ∈ before.source.heap ∧
      after.source.text = before.source.text ++ text ∧
      first.source.text = (KernelFiles.start .standard).source.text ++ text := by
  obtain ⟨before, emitted, leaves⟩ : ∃ before, emitAll .standard [leaveTmp] (.start .standard) =
      .ok () before ∧ "tmp" ∈ before.source.heap := ⟨_, rfl, by decide⟩
  obtain ⟨after, succeeded⟩ : ∃ after, freeOwnTmp.emit .standard before = .ok () after := by
    cases emitted
    exact ⟨_, rfl⟩
  obtain ⟨first, text, alone, isFirst, -, -, isText, isAlone, same⟩ :=
    emit_independent_iff emitted succeeded
  cases same.mpr (by decide)
  exact ⟨before, after, first, text, emitted, succeeded, isFirst, leaves, isText, isAlone⟩

/-- Behind a kernel that left an array of the same name on the heap, an array that is not on the
heap is deleted. -/
theorem freeLocalTmp_not_independent :
    ∃ before after first, emitAll .standard [leaveTmp] (.start .standard) = .ok () before ∧
      freeLocalTmp.emit .standard before = .ok () after ∧
      freeLocalTmp.emit .standard (.start .standard) = .ok () first ∧
      (after.source.lines.toList.drop before.source.lines.size).map Line.text =
        ["void local() \x7b", "#pragma HLS DATAFLOW",
          "#pragma HLS INTERFACE s_axilite port=return bundle=config", "int32_t tmp[4];",
          "delete[] tmp;", "\x7d", ""] ∧
      (first.source.lines.toList.drop (KernelFiles.start .standard).source.lines.size).map
          Line.text =
        ["void local() \x7b", "#pragma HLS DATAFLOW",
          "#pragma HLS INTERFACE s_axilite port=return bundle=config", "int32_t tmp[4];",
          "\x7d", ""] :=
  ⟨_, _, _, rfl, rfl, rfl, rfl, rfl⟩

end KernelCall

end StreamSynth
