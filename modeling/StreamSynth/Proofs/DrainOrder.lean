import Mathlib.Data.List.Chain
import Mathlib.Data.List.Forall2
import StreamSynth.Proofs.LoweredRegion

/-!
# The order of drains

A drain is written behind the statement that follows it. For a whole sequence this means that the
other statements are written first, in program order and each from the state that the one before
it left, and then the drains, the last one first. Two drains in a row are refused.
-/

namespace StreamSynth

def Stmt.drains : Stmt → Bool
  | .evaluate (.call name _ (.string direction :: _)) =>
    name = streamSubimage && direction = "stream_to_buffer"
  | _ => false

inductive Stmt.DrainLine : Stmt → String → Prop
  | mk {type args printed} : 5 ≤ args.length → args.length ≤ 11 →
      Expr.printArgs args = .ok printed →
      DrainLine (.evaluate (.call streamSubimage type (.string "stream_to_buffer" :: args)))
        ("stream_to_subimage(" ++ printed ++ ");")

theorem Stmt.drains_iff {s : Stmt} : s.drains = true ↔ ∃ type args,
    s = .evaluate (.call streamSubimage type (.string "stream_to_buffer" :: args)) := by
  constructor
  · intro isDrain
    unfold drains at isDrain
    split at isDrain
    · simp only [Bool.and_eq_true, decide_eq_true_eq] at isDrain
      obtain ⟨rfl, rfl⟩ := isDrain
      exact ⟨_, _, rfl⟩
    · cases isDrain
  · rintro ⟨type, args, rfl⟩
    simp [drains]

theorem Stmt.leading_ofList {s : Stmt} (noBlock : ∀ first rest, s ≠ .block first rest)
    (rest : List Stmt) : (ofList (s :: rest)).leading = s := by
  have self : s.leading = s := by
    cases s with
    | block first rest => exact absurd rfl (noBlock first rest)
    | _ => rfl
  cases rest with
  | nil => exact self
  | cons next rest => exact self

theorem Direction.of_eq_drain_iff {args : List Expr} :
    Direction.of args = .ok .drain ↔ ∃ rest, args = .string "stream_to_buffer" :: rest := by
  constructor
  · intro isDrain
    unfold Direction.of at isDrain
    split at isDrain
    · cases isDrain
    · next stated =>
      obtain ⟨first, isFirst, isString⟩ := Option.bind_eq_some_iff.mp stated
      obtain ⟨rest, rfl⟩ := List.head?_eq_some_iff.mp isFirst
      cases first with
      | string text =>
        cases isString
        exact ⟨rest, rfl⟩
      | _ => cases isString
    · cases isDrain
    · cases isDrain
  · rintro ⟨rest, rfl⟩
    rfl

namespace Host

variable {config : Config} {env : Env} {before after : Host} {s : Stmt}

theorem isDrain_evaluate_call (type : ScalarType) (args : List Expr) :
    isDrain (.evaluate (.call streamSubimage type args)) =
      (Direction.of args).map (decide <| · = .drain) := by
  simp only [isDrain, Expr.callTo?, if_true]
  cases Direction.of args <;> rfl

theorem isDrain_of_not_call
    (noCall : ∀ type args, s ≠ .evaluate (.call streamSubimage type args)) :
    isDrain s = .ok false := by
  cases s with
  | evaluate value =>
    have noCallTo : value.callTo? streamSubimage = none := by
      rw [Option.eq_none_iff_forall_ne_some]
      intro args isCall
      obtain ⟨type, rfl⟩ := Expr.callTo?_eq_some_iff.mp isCall
      exact noCall type args rfl
    simp only [isDrain, noCallTo]
  | _ => rfl

/-- Whether a statement that can be written is a drain is known. -/
theorem isDrain_of_emit (succeeded : (emitter config).emit s env before = .ok () after) :
    isDrain s = .ok s.drains := by
  by_cases isCall : ∃ type args, s = .evaluate (.call streamSubimage type args)
  · obtain ⟨type, args, rfl⟩ := isCall
    obtain ⟨_, direction, stated, _⟩ := transfer_eq_ok_iff.mp succeeded
    have same : direction = .drain ↔
        (Stmt.evaluate (.call streamSubimage type args)).drains = true := by
      rw [Stmt.drains_iff, ← Except.ok.injEq, ← stated, Direction.of_eq_drain_iff]
      simp
    rw [isDrain_evaluate_call, stated]
    exact congrArg Except.ok (Bool.eq_iff_iff.mpr (decide_eq_true_iff.trans same))
  · have noDrain : s.drains = false := by
      rw [Bool.eq_false_iff]
      intro isDrain
      obtain ⟨type, args, rfl⟩ := Stmt.drains_iff.mp isDrain
      exact isCall ⟨type, _, rfl⟩
    rw [noDrain]
    exact isDrain_of_not_call fun type args isEvaluate => isCall ⟨type, args, isEvaluate⟩

theorem isDrain_of_drains (isDrain : s.drains = true) : Host.isDrain s = .ok true := by
  obtain ⟨type, args, rfl⟩ := Stmt.drains_iff.mp isDrain
  rfl

theorem emit_drain_iff (isDrain : s.drains = true) :
    (emitter config).emit s env before = .ok () after ↔
      ∃ text, s.DrainLine text ∧ before.onWriter (·.line text) = after := by
  obtain ⟨type, args, rfl⟩ := Stmt.drains_iff.mp isDrain
  refine transfer_eq_ok_iff.trans ?_
  constructor
  · rintro ⟨fits, direction, ⟨⟩, printed, isPrinted, rfl⟩
    rw [List.length_cons] at fits
    exact ⟨_, .mk (by omega) (by omega) isPrinted, rfl⟩
  · rintro ⟨_, ⟨few, many, isPrinted⟩, rfl⟩
    exact ⟨by rw [List.length_cons]; omega, .drain, rfl, _, isPrinted, rfl⟩

theorem emit_block_iff {first rest : Stmt} :
    (emitter config).emit (.block first rest) env before = .ok () after ↔
      (isDrain first = .ok false ∧
        ∃ middle, (emitter config).emit first env before = .ok () middle ∧
          (emitter config).emit rest env middle = .ok () after) ∨
      (isDrain first = .ok true ∧ isDrain rest.leading = .ok false ∧
        ∃ middle, (emitter config).emit rest env before = .ok () middle ∧
          (emitter config).emit first env middle = .ok () after) := by
  simp only [Emitter.emit_eq_ok_iff]
  constructor
  · intro writes
    cases writes with
    | block notDrain firstWritten restWritten =>
      exact .inl ⟨notDrain, _, firstWritten, restWritten⟩
    | drain isDrain nextNotDrain restWritten firstWritten =>
      exact .inr ⟨isDrain, nextNotDrain, _, restWritten, firstWritten⟩
  · rintro (⟨notDrain, middle, firstWritten, restWritten⟩ |
      ⟨isDrain, nextNotDrain, middle, restWritten, firstWritten⟩)
    · exact .block notDrain firstWritten restWritten
    · exact .drain isDrain nextNotDrain restWritten firstWritten

/-- Statements are written one after the other, each from the state that the one before it left
and with lines of its own. -/
inductive InTurn (config : Config) (env : Env) :
    List Stmt → Host → List (List Line) → Host → Prop
  | nil {host} : InTurn config env [] host [] host
  | cons {s rest before lines middle pieces after} :
      (emitter config).emit s env before = .ok () middle →
      before.writer.Grows lines middle.writer → InTurn config env rest middle pieces after →
      InTurn config env (s :: rest) before (lines :: pieces) after

def writerView (config : Config) : Emitter.WriterView (emitter config) where
  writer := Host.writer
  writer_onWriter _ _ := rfl
  region_grows isRegion written := by
    obtain ⟨target, _, rfl⟩ := region_of_some isRegion
    obtain ⟨args, kernels, _, _, rfl⟩ := lowerRegion_ok written
    exact ⟨_, Writer.Grows.line _ _⟩
  intrinsic_grows isIntrinsic written := by
    obtain ⟨text, rfl, _⟩ := intrinsic_line isIntrinsic written
    exact ⟨_, Writer.Grows.line _ _⟩

theorem emit_grows (succeeded : (emitter config).emit s env before = .ok () after) :
    ∃ lines, before.writer.Grows lines after.writer :=
  (Emitter.Writes.of_emit succeeded).grows (writerView config)

/-- The sequence is written with its drains behind everything else, the last drain first. -/
def DrainedLast (config : Config) (env : Env) (list : List Stmt) (before after : Host) : Prop :=
  ∃ pieces middle lines,
    InTurn config env (list.filter fun s => !s.drains) before pieces middle ∧
    List.Forall₂ Stmt.DrainLine (list.filter Stmt.drains) lines ∧
    after = middle.onWriter (·.lineAll lines.reverse)

namespace DrainedLast

variable {rest : List Stmt}

theorem nil_iff : DrainedLast config env [] before after ↔ before = after := by
  constructor
  · rintro ⟨_, _, _, ⟨⟩, ⟨⟩, rfl⟩
    rfl
  · rintro rfl
    exact ⟨[], before, [], .nil, .nil, rfl⟩

/-- A drain is written when all that follows it is. -/
theorem cons_drain_iff (isDrain : s.drains = true) :
    DrainedLast config env (s :: rest) before after ↔
      ∃ middle, DrainedLast config env rest before middle ∧
        (emitter config).emit s env middle = .ok () after := by
  simp only [DrainedLast, List.filter_cons, isDrain, emit_drain_iff isDrain]
  constructor
  · rintro ⟨pieces, host, _, inTurn, areLines, rfl⟩
    cases areLines with
    | @cons _ text _ lines isLine areLines =>
      refine ⟨_, ⟨pieces, host, lines, inTurn, areLines, rfl⟩, text, isLine, ?_⟩
      simp [onWriter, Writer.lineAll]
  · rintro ⟨middle, ⟨pieces, host, lines, inTurn, areLines, rfl⟩, text, isLine, rfl⟩
    refine ⟨pieces, host, text :: lines, inTurn, .cons isLine areLines, ?_⟩
    simp [onWriter, Writer.lineAll]

theorem cons_iff (noDrain : s.drains = false) :
    DrainedLast config env (s :: rest) before after ↔
      ∃ middle, (emitter config).emit s env before = .ok () middle ∧
        DrainedLast config env rest middle after := by
  simp only [DrainedLast, List.filter_cons, noDrain]
  constructor
  · rintro ⟨_, host, lines, inTurn, areLines, rfl⟩
    cases inTurn with
    | cons written _ inTurn => exact ⟨_, written, _, host, lines, inTurn, areLines, rfl⟩
  · rintro ⟨middle, written, pieces, host, lines, inTurn, areLines, rfl⟩
    obtain ⟨added, grows⟩ := emit_grows written
    exact ⟨_, host, lines, .cons written grows inTurn, areLines, rfl⟩

end DrainedLast

theorem emit_noOp_iff : (emitter config).emit .noOp env before = .ok () after ↔ before = after :=
  Emission.pure_eq_ok_iff.trans (and_iff_right rfl)

/-- A sequence is written exactly when it has no two drains in a row and its drains go last. -/
theorem emit_ofList_iff {list : List Stmt}
    (noBlocks : ∀ s ∈ list, ∀ first rest, s ≠ .block first rest) :
    (emitter config).emit (Stmt.ofList list) env before = .ok () after ↔
      list.IsChain (fun s next => ¬(s.drains ∧ next.drains)) ∧
      DrainedLast config env list before after := by
  induction list using Stmt.ofList.induct generalizing before after with
  | case1 =>
    rw [DrainedLast.nil_iff]
    exact emit_noOp_iff.trans (and_iff_right .nil).symm
  | case2 s =>
    refine Iff.trans ?_ (and_iff_right (.singleton s)).symm
    cases isDrain : s.drains with
    | true => simp [DrainedLast.cons_drain_iff isDrain, DrainedLast.nil_iff, Stmt.ofList]
    | false => simp [DrainedLast.cons_iff isDrain, DrainedLast.nil_iff, Stmt.ofList]
  | case3 s next rest inductionHypothesis =>
    obtain ⟨_, restPlain⟩ := List.forall_mem_cons.mp noBlocks
    simp only [Stmt.ofList, emit_block_iff, List.isChain_cons_cons,
      Stmt.leading_ofList (restPlain next (by simp)), inductionHypothesis restPlain]
    cases isDrain : s.drains with
    | true =>
      rw [DrainedLast.cons_drain_iff isDrain]
      constructor
      · rintro (⟨notDrain, _⟩ | ⟨_, nextNotDrain, middle, ⟨chain, drained⟩, written⟩)
        · rw [isDrain_of_drains isDrain] at notDrain
          cases notDrain
        · refine ⟨⟨?_, chain⟩, middle, drained, written⟩
          rintro ⟨_, nextDrains⟩
          rw [isDrain_of_drains nextDrains] at nextNotDrain
          cases nextNotDrain
      · rintro ⟨⟨notBoth, chain⟩, middle, drained, written⟩
        have nextNoDrain : next.drains = false := by simpa using notBoth
        obtain ⟨_, nextWritten, _⟩ := (DrainedLast.cons_iff nextNoDrain).mp drained
        have nextNotDrain := isDrain_of_emit nextWritten
        rw [nextNoDrain] at nextNotDrain
        exact .inr ⟨isDrain_of_drains isDrain, nextNotDrain, middle, ⟨chain, drained⟩, written⟩
    | false =>
      rw [DrainedLast.cons_iff isDrain]
      constructor
      · rintro (⟨_, middle, written, chain, drained⟩ | ⟨drains, _, middle, _, written⟩)
        · exact ⟨⟨by simp, chain⟩, middle, written, drained⟩
        · rw [isDrain_of_emit written, isDrain] at drains
          cases drains
      · rintro ⟨⟨_, chain⟩, middle, written, drained⟩
        have notDrain := isDrain_of_emit written
        rw [isDrain] at notDrain
        exact .inl ⟨notDrain, middle, written, chain, drained⟩

theorem InTurn.grows {list : List Stmt} {pieces : List (List Line)}
    (inTurn : InTurn config env list before pieces after) :
    before.writer.Grows pieces.flatten after.writer := by
  induction inTurn with
  | nil => exact Writer.Grows.refl _
  | cons _ grows _ inductionHypothesis => exact grows.trans inductionHypothesis

theorem emit_ok_or_error (s : Stmt) (env : Env) (before : Host) :
    (∃ after, (emitter config).emit s env before = .ok () after) ∨
      ∃ stop reached, (emitter config).emit s env before = .error stop reached := by
  cases (emitter config).emit s env before with
  | ok _ after => exact .inl ⟨after, rfl⟩
  | error stop reached => exact .inr ⟨stop, reached, rfl⟩

/-- A sequence is written exactly when it has no two drains in a row. First come the other
statements in program order, each once and from the state that the one before it left, and behind
them the lines of the drains, the last one first. -/
theorem emit_sequence {list : List Stmt}
    (noBlocks : ∀ s ∈ list, ∀ first rest, s ≠ .block first rest) (config : Config) (env : Env)
    (before : Host) :
    (∀ after, (emitter config).emit (Stmt.ofList list) env before = .ok () after ↔
      list.IsChain (fun s next => ¬(s.drains ∧ next.drains)) ∧
      ∃ pieces middle lines,
        InTurn config env (list.filter fun s => !s.drains) before pieces middle ∧
        List.Forall₂ Stmt.DrainLine (list.filter Stmt.drains) lines ∧
        after = middle.onWriter (·.lineAll lines.reverse) ∧
        after.writer.lines.toList = before.writer.lines.toList ++
          (pieces.flatten ++ lines.reverse.map (⟨before.writer.level, ·⟩))) ∧
    (¬ list.IsChain (fun s next => ¬(s.drains ∧ next.drains)) →
      ∃ stop reached,
        (emitter config).emit (Stmt.ofList list) env before = .error stop reached) := by
  constructor
  · intro after
    rw [emit_ofList_iff noBlocks]
    refine and_congr_right fun _ => ?_
    constructor
    · rintro ⟨pieces, middle, lines, inTurn, areLines, rfl⟩
      refine ⟨pieces, middle, lines, inTurn, areLines, rfl, ?_⟩
      have grows := inTurn.grows.trans (Writer.Grows.lineAll middle.writer lines.reverse)
      rw [inTurn.grows.level_eq] at grows
      exact grows.lines_eq
    · rintro ⟨pieces, middle, lines, inTurn, areLines, isAfter, _⟩
      exact ⟨pieces, middle, lines, inTurn, areLines, isAfter⟩
  · intro drainPair
    rcases emit_ok_or_error (Stmt.ofList list) env before with ⟨after, written⟩ | failed
    · exact absurd ((emit_ofList_iff noBlocks).mp written).1 drainPair
    · exact failed

def fillBetweenDrains : List Stmt :=
  let zero : Expr := .ofInt 0
  let transfer (direction stream : String) : Stmt := .evaluate (.call streamSubimage .default
    [.string direction, .var stream .handle, zero, zero, zero, zero])
  [transfer "stream_to_buffer" "a.stream", transfer "buffer_to_stream" "b.stream",
    .produce "_hls_target.copy" (.store "out" (.load "in" .default zero) zero),
    transfer "stream_to_buffer" "c.stream"]

theorem emit_sequence_fillBetweenDrains :
    ∃ after, (emitter .standard).emit (Stmt.ofList fillBetweenDrains) .empty (.start .standard) =
        .ok () after ∧
      (after.writer.lines.toList.drop (start .standard).writer.lines.size).map Line.text =
        ["subimage_to_stream(b_stream, 0, 0, 0, 0);", "hls_target_copy(in, out);",
          "stream_to_subimage(c_stream, 0, 0, 0, 0);",
          "stream_to_subimage(a_stream, 0, 0, 0, 0);"] ∧
      fillBetweenDrains.IsChain (fun s next => ¬(s.drains ∧ next.drains)) ∧
      ∃ pieces middle lines,
        InTurn .standard .empty (fillBetweenDrains.filter fun s => !s.drains) (.start .standard)
          pieces middle ∧
        List.Forall₂ Stmt.DrainLine (fillBetweenDrains.filter Stmt.drains) lines ∧
        after = middle.onWriter (·.lineAll lines.reverse) ∧
        after.writer.lines.toList = (start .standard).writer.lines.toList ++
          (pieces.flatten ++ lines.reverse.map (⟨(start .standard).writer.level, ·⟩)) :=
  ⟨_, rfl, rfl, ((emit_sequence (by simp [fillBetweenDrains]) _ _ _).1 _).mp rfl⟩

end Host

end StreamSynth
