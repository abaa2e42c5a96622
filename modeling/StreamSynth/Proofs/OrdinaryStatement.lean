import StreamSynth.Proofs.KernelIndependence
import StreamSynth.Proofs.RegionSite
import StreamSynth.Proofs.RunLogic

/-!
# Statements that the host writes like any other code

The host has ways of its own for regions, transfers, drains and buffer descriptors. Where none of
these stands it writes what the plain emitter writes. The two work on different states and either
may stop at any line, so what is compared is how both end and what each has added by then. Only
the host folds the shapes of descriptors, so that it alone may overflow there.
-/

namespace StreamSynth

/-- The statement has no region, no transfer, and no descriptor whose shape lacks fields. -/
def Stmt.Ordinary (naming : Naming) : Stmt → Prop
  | .produce name body =>
    ¬ naming.regionStart.toList.isPrefixOf name.toList = true ∧ body.Ordinary naming
  | .letIn _ value body =>
    (∀ memory shape, BuildsDescriptor value memory shape → 4 ∣ shape.length) ∧
      body.Ordinary naming
  | .evaluate value => ∀ type args,
    value ≠ .call streamSubimage type args ∧ value ≠ .call bufferToStencil type args
  | .consume _ body | .loop _ _ _ body | .allocate _ _ _ body | .realize _ _ _ body =>
    body.Ordinary naming
  | .block first rest => first.Ordinary naming ∧ rest.Ordinary naming
  | .ifThen _ thenCase => thenCase.Ordinary naming
  | .ifThenElse _ thenCase elseCase => thenCase.Ordinary naming ∧ elseCase.Ordinary naming
  | .assert _ _ | .store _ _ _ | .provide _ _ _ | .free _ => True

structure Writer.InStep (one other : Writer) : Prop where
  level_eq : one.level = other.level
  heap_eq : one.heap = other.heap

namespace Writer.InStep

variable {one other : Writer}

theorem perform (inStep : InStep one other) (step : WriterStep) :
    InStep (one.perform step) (other.perform step) := by
  cases step with
  | line text => exact ⟨inStep.level_eq, inStep.heap_eq⟩
  | indent => exact ⟨congrArg (· + 1) inStep.level_eq, inStep.heap_eq⟩
  | dedent => exact ⟨congrArg (· - 1) inStep.level_eq, inStep.heap_eq⟩
  | heap step =>
    constructor
    · rw [(perform_heap one step).1, (perform_heap other step).1, inStep.level_eq]
    · rw [(perform_heap one step).2.1, (perform_heap other step).2.1, inStep.heap_eq]

theorem performAll (inStep : InStep one other) (steps : List WriterStep) :
    InStep (one.performAll steps) (other.performAll steps) := by
  induction steps generalizing one other with
  | nil => exact inStep
  | cons step rest inductionHypothesis => exact inductionHypothesis (inStep.perform step)

end Writer.InStep

/-- The host and a plain writer went on from states in step. They added the same lines and are in
step again, and nothing else changed in the state of the host. -/
structure Host.GoesWith (host : Host) (w : Writer) (hostAfter : Host) (after : Writer) :
    Prop where
  kernels_eq : hostAfter.kernels = host.kernels
  names_eq : hostAfter.names = host.names
  regions_eq : hostAfter.regions = host.regions
  added : ∃ lines, hostAfter.writer.lines.toList = host.writer.lines.toList ++ lines ∧
    after.lines.toList = w.lines.toList ++ lines
  inStep : hostAfter.writer.InStep after

namespace Host.GoesWith

variable {host hostMiddle hostAfter : Host} {w middle after : Writer}

theorem refl (inStep : host.writer.InStep w) : host.GoesWith w host w :=
  ⟨rfl, rfl, rfl, ⟨[], by simp⟩, inStep⟩

theorem trans (first : host.GoesWith w hostMiddle middle)
    (second : hostMiddle.GoesWith middle hostAfter after) :
    host.GoesWith w hostAfter after where
  kernels_eq := second.kernels_eq.trans first.kernels_eq
  names_eq := second.names_eq.trans first.names_eq
  regions_eq := second.regions_eq.trans first.regions_eq
  added := by
    obtain ⟨lines, hostLines, plainLines⟩ := first.added
    obtain ⟨more, hostMore, plainMore⟩ := second.added
    refine ⟨lines ++ more, ?_, ?_⟩
    · rw [hostMore, hostLines, List.append_assoc]
    · rw [plainMore, plainLines, List.append_assoc]
  inStep := second.inStep

theorem performAll (inStep : host.writer.InStep w) (steps : List WriterStep) :
    host.GoesWith w (host.onWriter (·.performAll steps)) (w.performAll steps) where
  kernels_eq := rfl
  names_eq := rfl
  regions_eq := rfl
  added := by
    refine ⟨_, Writer.lines_performAll host.writer steps, ?_⟩
    rw [inStep.level_eq, inStep.heap_eq]
    exact Writer.lines_performAll w steps
  inStep := inStep.performAll steps

theorem text (goes : host.GoesWith w hostAfter after) :
    ∃ text, hostAfter.writer.text = host.writer.text ++ text ∧ after.text = w.text ++ text := by
  obtain ⟨lines, hostLines, plainLines⟩ := goes.added
  refine ⟨renderAll lines, ?_, ?_⟩
  · simp only [Writer.text_eq_renderAll, hostLines, renderAll_append]
  · simp only [Writer.text_eq_renderAll, plainLines, renderAll_append]

end Host.GoesWith

/-- From states in step both runs end alike, unless the host overflows. -/
def Host.plainLogic : RunLogic Empty Host Writer where
  starts host w := host.writer.InStep w
  passes _ := GoesWith
  stops _ _ := GoesWith
  isOwn stop := stop = .overflow
  starts_of_passes goes := goes.inStep
  passes_nil := .refl
  passes_append := .trans
  stops_append goes _ := goes
  stops_of_passes := .trans
  refuses inStep _ _ := .refl inStep

abbrev Host.Follows {α : Type} (run : Emission Host α) (plainRun : Emission Writer α) : Prop :=
  plainLogic.Holds [] run plainRun

namespace Host.Follows

theorem halts : plainLogic.Halts [] := fun inStep _ => .refl inStep

/-- What only the host finds out on the way may overflow and does nothing else. -/
theorem overflow_bind {α β : Type} {result : Except Stop α} {next : α → Emission Host β}
    {plainRun : Emission Writer β}
    (refusesNothing : ∀ stop, result = .error stop → stop = .overflow)
    (rest : ∀ value, Follows (next value) plainRun) :
    Follows (Emission.ofStop result >>= next) plainRun := by
  cases result with
  | ok value => exact rest value
  | error stop => exact fun _ _ _ => .own (refusesNothing stop rfl)

theorem performAll (steps : List WriterStep) :
    Follows (modify (onWriter (·.performAll steps))) (modify (·.performAll steps)) :=
  .change fun _ _ inStep => .performAll inStep steps

end Host.Follows

section Walk

variable {config : Config}

abbrev Config.plainEmitter (config : Config) : Emitter Writer :=
  .plain config.naming config.streamDepth

open Host Host.Follows RunLogic.Holds

theorem follows_line (text : String) :
    Follows ((emitter config).line text) (config.plainEmitter.line text) :=
  performAll [.line text]

theorem follows_declare (type : StencilType) (name : String) :
    Follows ((emitter config).declare type name) (config.plainEmitter.declare type name) := by
  have asSteps : (fun w : Writer => w.lineAll ((type.generated ++ " " ++ identifier name ++ ";") ::
      type.pragmas (identifier name))) = (·.performAll (Emitter.declaration type name)) :=
    funext fun w => (Writer.performAll_lines w _).symm
  unfold Emitter.declare
  simp only [asSteps]
  exact performAll _

theorem follows_indented (opening : String) {body : Emission Host Unit}
    {plainBody : Emission Writer Unit} (follows : Follows body plainBody) :
    Follows ((emitter config).indented opening body)
      (config.plainEmitter.indented opening plainBody) :=
  (follows_line opening).bind fun _ => (performAll [.indent]).bind fun _ =>
    follows.bind fun _ => performAll [.dedent]

theorem allocateEnv_overflow {env : Env} {name : String} {extents : List Expr} {stop : Stop}
    (refused : allocateEnv env name extents = .error stop) : stop = .overflow := by
  unfold allocateEnv BufferSizes.recordAllocation at refused
  cases folded : Expr.product extents with
  | none =>
    rw [folded] at refused
    cases refused
    rfl
  | some size =>
    rw [folded] at refused
    cases refused

theorem letEnv_overflow {naming : Naming} {env : Env} {value : Expr} {stop : Stop}
    (wellShaped : ∀ memory shape, BuildsDescriptor value memory shape → 4 ∣ shape.length)
    (refused : letEnv naming env value = .error stop) : stop = .overflow := by
  unfold letEnv at refused
  split at refused
  · cases refused
  · next memory shape isDescriptor =>
    have complete := wellShaped memory shape (descriptorShape?_eq_some_iff.mp isDescriptor)
    rw [BufferSizes.recordShape, if_neg (by simpa using Nat.mod_eq_zero_of_dvd complete)] at refused
    exact allocateEnv_overflow refused

theorem isDrain_of_ordinary {s : Stmt} (ordinary : s.Ordinary config.naming) :
    isDrain s = .ok false := by
  cases s with
  | evaluate value =>
    have noCall : value.callTo? streamSubimage = none := by
      rw [Option.eq_none_iff_forall_ne_some]
      intro args isCall
      obtain ⟨type, rfl⟩ := Expr.callTo?_eq_some_iff.mp isCall
      exact (ordinary type args).1 rfl
    simp [isDrain, noCall]
  | _ => rfl

theorem intrinsic?_of_ordinary {value : Expr}
    (ordinary : (Stmt.evaluate value).Ordinary config.naming) : intrinsic? value = none := by
  unfold intrinsic?
  split
  · next name type args =>
    have notTransfer : name ≠ streamSubimage := by
      rintro rfl
      exact (ordinary type args).1 rfl
    have notCopy : name ≠ bufferToStencil := by
      rintro rfl
      exact (ordinary type args).2 rfl
    rw [if_neg notTransfer, if_neg notCopy]
  · rfl

/-- A whole statement is written in step. The environments need not agree: only regions read
them. -/
theorem follows_emit {s : Stmt} (ordinary : s.Ordinary config.naming) (env plainEnv : Env) :
    Follows ((emitter config).emit s env) (config.plainEmitter.emit s plainEnv) := by
  induction s generalizing env plainEnv with
  | letIn name value body bodyFollows =>
    refine overflow_bind (fun _ => letEnv_overflow ordinary.1) fun inner => ?_
    exact ofExcept_bind fun _ _ =>
      (follows_line _).bind fun _ => bodyFollows ordinary.2 inner plainEnv
  | assert condition message => exact ofExcept_bind fun _ _ => follows_line _
  | produce name body bodyFollows =>
    have noRegion : (emitter config).region? name body = none :=
      region?_eq_none_iff.mpr ordinary.1
    simp only [Emitter.emit, noRegion]
    exact (follows_line _).bind fun _ => bodyFollows ordinary.2 env plainEnv
  | consume name body bodyFollows =>
    exact (follows_line _).bind fun _ => bodyFollows ordinary env plainEnv
  | loop name min extent body bodyFollows =>
    exact ofExcept_bind fun _ _ => ofExcept_bind fun _ _ =>
      (follows_indented _ (bodyFollows ordinary env plainEnv)).bind fun _ => follows_line _
  | store name value index =>
    exact ofExcept_bind fun _ _ => ofExcept_bind fun _ _ => follows_line _
  | provide name value args =>
    exact ofExcept_bind fun _ _ => ofExcept_bind fun _ _ => follows_line _
  | allocate name type extents body bodyFollows =>
    refine overflow_bind (fun _ => allocateEnv_overflow) fun inner => ?_
    refine ofFold_bind halts fun size _ => ?_
    have bodyInner := bodyFollows ordinary inner plainEnv
    cases size.int? with
    | some constant => exact (follows_line _).bind fun _ => bodyInner
    | none =>
      exact (performAll [.heap (.allocate name)]).bind fun _ => ofExcept_bind fun _ _ =>
        (follows_line _).bind fun _ => bodyInner
  | free name =>
    change Follows (if config.naming.isStream name then _ else _)
      (if config.naming.isStream name then _ else _)
    split
    · exact pure ()
    · exact performAll [.heap (.free name)]
  | realize name type bounds body bodyFollows =>
    change Follows (if config.naming.isStream name then _ else _)
      (if config.naming.isStream name then _ else _)
    split
    · exact ofStop_bind halts fun _ _ => (follows_declare _ _).bind fun _ =>
        bodyFollows ordinary _ _
    · change Follows (if config.naming.isStencil name then _ else _)
        (if config.naming.isStencil name then _ else _)
      split
      · exact ofStop_bind halts fun _ _ => (follows_declare _ _).bind fun _ =>
          bodyFollows ordinary _ _
      · refine ofFold_bind halts fun size _ => ?_
        cases size.int? with
        | none => exact refused _
        | some constant => exact (follows_line _).bind fun _ => bodyFollows ordinary _ _
  | block first rest firstFollows restFollows =>
    have notDrain : (emitter config).isDrain first = .ok false := isDrain_of_ordinary ordinary.1
    simp only [Emitter.emit, notDrain]
    exact (firstFollows ordinary.1 env plainEnv).bind fun _ => restFollows ordinary.2 env plainEnv
  | ifThen condition thenCase thenFollows =>
    exact ofExcept_bind fun _ _ =>
      (follows_indented _ (thenFollows ordinary env plainEnv)).bind fun _ => follows_line _
  | ifThenElse condition thenCase elseCase thenFollows elseFollows =>
    exact ofExcept_bind fun _ _ =>
      (follows_indented _ (thenFollows ordinary.1 env plainEnv)).bind fun _ =>
        (follows_indented _ (elseFollows ordinary.2 env plainEnv)).bind fun _ => follows_line _
  | evaluate value =>
    have noIntrinsic : (emitter config).intrinsic? value = none := intrinsic?_of_ordinary ordinary
    simp only [Emitter.emit, noIntrinsic]
    change Follows _ (if value.int?.isSome then _ else _)
    split
    · exact pure ()
    · exact ofExcept_bind fun _ _ => follows_line _

end Walk

def Emission.ended {σ : Type} : Option Stop → σ → EStateM.Result Stop σ Unit
  | none, state => .ok () state
  | some stop, state => .error stop state

/-- A statement without regions, transfers and incomplete descriptors is written for the host as
for a kernel, up to the error that stops it if there is one, as long as no fold overflows. The
records, the names of kernels and the kernel files stay as they are. -/
theorem Host.emit_eq_plain {config : Config} {s : Stmt} {env : Env} {host : Host} {w : Writer}
    (ordinary : s.Ordinary config.naming) (inStep : host.writer.InStep w)
    (folds : ∀ stopped, (emitter config).emit s env host ≠ .error .overflow stopped) :
    ∃ (stop : Option Stop) (hostAfter : Host) (after : Writer) (text : String),
      (emitter config).emit s env host = Emission.ended stop hostAfter ∧
      (Emitter.plain config.naming config.streamDepth).emit s env w = Emission.ended stop after ∧
      hostAfter.writer.text = host.writer.text ++ text ∧ after.text = w.text ++ text ∧
      hostAfter.writer.InStep after ∧ hostAfter.regions = host.regions ∧
      hostAfter.names = host.names ∧ hostAfter.kernels = host.kernels := by
  have ends := follows_emit ordinary env env host w inStep
  generalize (emitter config).emit s env host = result at ends folds ⊢
  generalize config.plainEmitter.emit s env w = plainResult at ends ⊢
  obtain ⟨stop, hostAfter, after, hostEnds, plainEnds, goes⟩ : ∃ stop hostAfter after,
      result = Emission.ended stop hostAfter ∧ plainResult = Emission.ended stop after ∧
        host.GoesWith w hostAfter after := by
    cases ends with
    | ok goes => exact ⟨none, _, _, rfl, rfl, goes⟩
    | @error stop _ _ goes => exact ⟨some stop, _, _, rfl, rfl, goes⟩
    | own isOverflow =>
      cases isOverflow
      exact absurd rfl (folds _)
  obtain ⟨text, hostText, plainText⟩ := goes.text
  exact ⟨stop, hostAfter, after, text, hostEnds, plainEnds, hostText, plainText, goes.inStep,
    goes.regions_eq, goes.names_eq, goes.kernels_eq⟩

def nestedTransfer : Stmt :=
  let zero : Expr := .ofInt 0
  let descriptor : Expr := .call "buffer_init" .handle
    [.var "in.buffer" .handle, zero, zero, zero, zero, zero, zero, zero,
      .call "make_struct" .handle [zero, .ofInt 6, zero, zero]]
  .letIn "descriptor" descriptor (.produce "blur" (.realize "in.stream" .default [⟨zero, .ofInt 4⟩]
    (.allocate "tmp" .default [.var "n" .default]
      (.block (.loop "i" zero (.ofInt 4) (.store "tmp" (.var "i" .default) (.var "i" .default)))
        (.block (.free "tmp") (.evaluate (.not (.call streamSubimage .default []))))))))

theorem ordinary_nestedTransfer : nestedTransfer.Ordinary .standard := by
  refine ⟨?_, by decide, ⟨trivial, trivial, ?_⟩⟩
  · rintro memory shape ⟨_, isShape⟩
    cases isShape
    decide
  · exact fun _ _ => ⟨nofun, nofun⟩

def nestedTransferError : LoweringError :=
  .malformed streamSubimage "only valid as a statement in the host driver"

theorem Host.emit_eq_plain_nestedTransfer :
    ∃ hostAfter after text,
      (emitter .standard).emit nestedTransfer .empty (start .standard) =
        .error (.refused nestedTransferError) hostAfter ∧
      (Emitter.plain .standard 1).emit nestedTransfer .empty .empty =
        .error (.refused nestedTransferError) after ∧
      hostAfter.writer.text = (start .standard).writer.text ++ text ∧ after.text = text ∧
      hostAfter.regions = #[] := by
  obtain ⟨stopped, emitted⟩ : ∃ stopped, (emitter .standard).emit nestedTransfer .empty
      (start .standard) = .error (.refused nestedTransferError) stopped := ⟨_, rfl⟩
  have folds (other : Host) : (emitter .standard).emit nestedTransfer .empty (start .standard) ≠
      .error .overflow other := by
    rw [emitted]
    rintro ⟨⟩
  obtain ⟨ended, hostAfter, after, text, hostEnds, plainEnds, hostText, plainText, _, noRegions,
      _⟩ := @emit_eq_plain .standard _ _ _ .empty ordinary_nestedTransfer ⟨rfl, rfl⟩ folds
  rw [emitted] at hostEnds
  cases ended with
  | none => cases hostEnds
  | some stop =>
    cases hostEnds
    have startsEmpty : Writer.empty.text = "" := rfl
    rw [startsEmpty, String.empty_append] at plainText
    exact ⟨stopped, after, text, emitted, plainEnds, hostText, plainText, noRegions⟩

end StreamSynth
