import StreamSynth.Proofs.LoweredRegion

/-!
# The host code and the kernels agree

Without its regions a statement is written as the same lines, less the calls of kernels. So the
host code is the code of a pipeline without regions with one call for each region put in, in
program order, and the two kernel files have a prototype and a definition for each call.
-/

namespace StreamSynth

/-- The third list has the elements of the other two, those of each list in their order. -/
inductive Interleaved {α : Type} : List α → List α → List α → Prop
  | nil : Interleaved [] [] []
  | left {first second whole a} :
      Interleaved first second whole → Interleaved (first ++ [a]) second (whole ++ [a])
  | right {first second whole a} :
      Interleaved first second whole → Interleaved first (second ++ [a]) (whole ++ [a])

namespace Stmt

/-- The statement with nothing in the place of its outermost regions. -/
def withoutRegions (start : String) : Stmt → Stmt
  | produce name body =>
    if start.toList.isPrefixOf name.toList then noOp else produce name (body.withoutRegions start)
  | letIn name value body => letIn name value (body.withoutRegions start)
  | consume name body => consume name (body.withoutRegions start)
  | loop name min extent body => loop name min extent (body.withoutRegions start)
  | allocate name type extents body => allocate name type extents (body.withoutRegions start)
  | realize name type bounds body => realize name type bounds (body.withoutRegions start)
  | block first rest => block (first.withoutRegions start) (rest.withoutRegions start)
  | ifThen condition thenCase => ifThen condition (thenCase.withoutRegions start)
  | ifThenElse condition thenCase elseCase =>
    ifThenElse condition (thenCase.withoutRegions start) (elseCase.withoutRegions start)
  | other => other

variable (start : String)

theorem withoutRegions_region (target : String) (body : Stmt) :
    (produce (start ++ target) body).withoutRegions start = noOp := by
  simp [withoutRegions]

theorem outermostRegions_withoutRegions (s : Stmt) :
    (s.withoutRegions start).outermostRegions start = [] := by
  induction s with
  | produce name body inductionHypothesis =>
    by_cases starts : start.toList.isPrefixOf name.toList = true
    · simp [withoutRegions, starts, noOp, outermostRegions]
    · simp [withoutRegions, starts, outermostRegions, inductionHypothesis]
  | _ => simp [withoutRegions, outermostRegions, *]

theorem isDrain_withoutRegions (s : Stmt) :
    Host.isDrain (s.withoutRegions start) = Host.isDrain s := by
  cases s with
  | produce name body =>
    rw [withoutRegions]
    split <;> rfl
  | _ => rfl

theorem isDrain_leading_withoutRegions (s : Stmt) :
    Host.isDrain (s.withoutRegions start).leading = Host.isDrain s.leading := by
  induction s with
  | block first rest inductionHypothesis _ => exact inductionHypothesis
  | produce name body _ =>
    rw [withoutRegions]
    split <;> rfl
  | _ => rfl

end Stmt

namespace Writer

/-- `bare` has the lines of `whole` except for `calls`, and is otherwise in the same state. -/
structure Beside (calls : List Line) (whole bare : Writer) : Prop where
  level_eq : whole.level = bare.level
  heap_eq : whole.heap = bare.heap
  interleaved : Interleaved bare.lines.toList calls whole.lines.toList

namespace Beside

variable {calls : List Line} {whole bare : Writer}

theorem line (beside : Beside calls whole bare) (text : String) :
    Beside calls (whole.line text) (bare.line text) where
  level_eq := beside.level_eq
  heap_eq := beside.heap_eq
  interleaved := by
    simp only [Writer.line, Array.toList_push, beside.level_eq]
    exact beside.interleaved.left

theorem lineAll (beside : Beside calls whole bare) (texts : List String) :
    Beside calls (whole.lineAll texts) (bare.lineAll texts) := by
  induction texts generalizing whole bare with
  | nil => exact beside
  | cons text rest inductionHypothesis => exact inductionHypothesis (beside.line text)

theorem call (beside : Beside calls whole bare) (text : String) :
    Beside (calls ++ [⟨whole.level, text⟩]) (whole.line text) bare where
  level_eq := beside.level_eq
  heap_eq := beside.heap_eq
  interleaved := by
    simp only [Writer.line, Array.toList_push]
    exact beside.interleaved.right

theorem indent (beside : Beside calls whole bare) : Beside calls whole.indent bare.indent :=
  ⟨congrArg (· + 1) beside.level_eq, beside.heap_eq, beside.interleaved⟩

theorem dedent (beside : Beside calls whole bare) : Beside calls whole.dedent bare.dedent :=
  ⟨congrArg (· - 1) beside.level_eq, beside.heap_eq, beside.interleaved⟩

theorem allocate (beside : Beside calls whole bare) (name : String) :
    Beside calls (whole.allocate name) (bare.allocate name) :=
  ⟨beside.level_eq, congrArg (name :: ·) beside.heap_eq, beside.interleaved⟩

theorem release (beside : Beside calls whole bare) (name text : String) :
    Beside calls (whole.release name text) (bare.release name text) := by
  unfold Writer.release
  rw [beside.heap_eq]
  split
  · have erased : Beside calls { whole with heap := bare.heap.erase name }
        { bare with heap := bare.heap.erase name } :=
      ⟨beside.level_eq, rfl, beside.interleaved⟩
    exact erased.line text
  · exact beside

end Beside

end Writer

namespace Host

def Beside (host bare : Host) : Prop :=
  ∃ calls : List Line, calls.map Line.text = host.regions.toList.map RegionRecord.call ∧
    host.writer.Beside calls bare.writer

namespace Beside

variable {config : Config} {host bare : Host}

theorem start (config : Config) : (Host.start config).Beside (Host.start config) :=
  ⟨[], rfl, Writer.Beside.lineAll ⟨rfl, rfl, .nil⟩ _⟩

theorem onWriter (beside : host.Beside bare) {change : Writer → Writer}
    (keeps : ∀ {calls whole bare}, Writer.Beside calls whole bare →
      Writer.Beside calls (change whole) (change bare)) :
    ((emitter config).onWriter change host).Beside ((emitter config).onWriter change bare) := by
  obtain ⟨calls, texts, writers⟩ := beside
  exact ⟨calls, texts, keeps writers⟩

theorem put (beside : host.Beside bare) (text : String) :
    ((emitter config).put text host).Beside ((emitter config).put text bare) :=
  beside.onWriter (·.line text)

theorem enter (beside : host.Beside bare) (opening : String) :
    ((emitter config).enter opening host).Beside ((emitter config).enter opening bare) :=
  (beside.put opening).onWriter (·.indent)

theorem leave (beside : host.Beside bare) :
    ((emitter config).leave host).Beside ((emitter config).leave bare) :=
  beside.onWriter (·.dedent)

theorem declared (beside : host.Beside bare) (type : StencilType) (name : String) :
    ((emitter config).declared type name host).Beside
      ((emitter config).declared type name bare) :=
  beside.onWriter (·.lineAll _)

theorem lowerRegion {target : String} {body : Stmt} {env : Env} {after : Host}
    (beside : host.Beside bare)
    (succeeded : lowerRegion config target body env host = .ok () after) :
    after.Beside bare := by
  obtain ⟨calls, texts, writers⟩ := beside
  obtain ⟨args, kernels, _, _, rfl⟩ := lowerRegion_ok succeeded
  refine ⟨_, ?_, writers.call _⟩
  simp [texts]

end Beside

end Host

/-- Without its regions a statement is written in step with itself. -/
theorem Emitter.Writes.withoutRegions {config : Config} {s : Stmt} {env : Env}
    {before after bare : Host} (writes : (Host.emitter config).Writes s env before after)
    (beside : before.Beside bare) :
    ∃ bareAfter, after.Beside bareAfter ∧ (Host.emitter config).Writes
      (s.withoutRegions config.naming.regionStart) env bare bareAfter := by
  induction writes generalizing bare with
  | letIn known isPrinted _ body =>
    obtain ⟨bareAfter, besideAfter, written⟩ := body (beside.put _)
    exact ⟨bareAfter, besideAfter, .letIn known isPrinted written⟩
  | assert isPrinted => exact ⟨_, beside.put _, .assert isPrinted⟩
  | region isRegion written =>
    obtain ⟨target, rfl, rfl⟩ := Host.region_of_some isRegion
    refine ⟨bare, beside.lowerRegion written, ?_⟩
    rw [Stmt.withoutRegions_region]
    exact .constant rfl rfl
  | produce noRegion _ body =>
    obtain ⟨bareAfter, besideAfter, written⟩ := body (beside.put _)
    have notStarts := Host.region?_eq_none_iff.mp noRegion
    refine ⟨bareAfter, besideAfter, ?_⟩
    rw [Stmt.withoutRegions, if_neg notStarts]
    exact .produce (Host.region?_eq_none_iff.mpr notStarts) written
  | consume _ body =>
    obtain ⟨bareAfter, besideAfter, written⟩ := body (beside.put _)
    exact ⟨bareAfter, besideAfter, .consume written⟩
  | loop lowPrinted sizePrinted _ body =>
    obtain ⟨inside, besideInside, written⟩ := body (beside.enter _)
    exact ⟨_, besideInside.leave.put _, .loop lowPrinted sizePrinted written⟩
  | store placePrinted isPrinted => exact ⟨_, beside.put _, .store placePrinted isPrinted⟩
  | provide placePrinted isPrinted => exact ⟨_, beside.put _, .provide placePrinted isPrinted⟩
  | allocateArray known isSize isConstant _ body =>
    obtain ⟨bareAfter, besideAfter, written⟩ := body (beside.put _)
    exact ⟨bareAfter, besideAfter, .allocateArray known isSize isConstant written⟩
  | allocateHeap known isSize notConstant isPrinted _ body =>
    obtain ⟨bareAfter, besideAfter, written⟩ := body ((beside.onWriter (·.allocate _)).put _)
    exact ⟨bareAfter, besideAfter, .allocateHeap known isSize notConstant isPrinted written⟩
  | freeStream isStream => exact ⟨bare, beside, .freeStream isStream⟩
  | free notStream => exact ⟨_, beside.onWriter (·.release _ _), .free notStream⟩
  | realizeStream isStream isType _ body =>
    obtain ⟨bareAfter, besideAfter, written⟩ := body (beside.declared _ _)
    exact ⟨bareAfter, besideAfter, .realizeStream isStream isType written⟩
  | realizeStencil notStream isStencil isType _ body =>
    obtain ⟨bareAfter, besideAfter, written⟩ := body (beside.declared _ _)
    exact ⟨bareAfter, besideAfter, .realizeStencil notStream isStencil isType written⟩
  | realizeArray notStream notStencil isSize isConstant _ body =>
    obtain ⟨bareAfter, besideAfter, written⟩ := body (beside.put _)
    exact ⟨bareAfter, besideAfter,
      .realizeArray notStream notStencil isSize isConstant written⟩
  | @block first rest _ _ _ _ notDrain _ _ firstCase restCase =>
    obtain ⟨bareMiddle, besideMiddle, firstWritten⟩ := firstCase beside
    obtain ⟨bareAfter, besideAfter, restWritten⟩ := restCase besideMiddle
    have bareNotDrain := (first.isDrain_withoutRegions config.naming.regionStart).trans notDrain
    exact ⟨bareAfter, besideAfter, .block bareNotDrain firstWritten restWritten⟩
  | @drain first rest _ _ _ _ drains nextNotDrain _ _ restCase firstCase =>
    obtain ⟨bareMiddle, besideMiddle, restWritten⟩ := restCase beside
    obtain ⟨bareAfter, besideAfter, firstWritten⟩ := firstCase besideMiddle
    have bareDrains := (first.isDrain_withoutRegions config.naming.regionStart).trans drains
    have bareNext :=
      (rest.isDrain_leading_withoutRegions config.naming.regionStart).trans nextNotDrain
    exact ⟨bareAfter, besideAfter, .drain bareDrains bareNext restWritten firstWritten⟩
  | ifThen isPrinted _ thenCase =>
    obtain ⟨inside, besideInside, written⟩ := thenCase (beside.enter _)
    exact ⟨_, besideInside.leave.put _, .ifThen isPrinted written⟩
  | ifThenElse isPrinted _ _ thenCase elseCase =>
    obtain ⟨inThen, besideThen, thenWritten⟩ := thenCase (beside.enter _)
    obtain ⟨inElse, besideElse, elseWritten⟩ := elseCase (besideThen.leave.enter _)
    exact ⟨_, besideElse.leave.put _, .ifThenElse isPrinted thenWritten elseWritten⟩
  | intrinsic isIntrinsic written =>
    obtain ⟨text, rfl, anywhere⟩ := Host.intrinsic_line isIntrinsic written
    exact ⟨_, beside.put text, .intrinsic isIntrinsic (anywhere bare)⟩
  | constant noIntrinsic isConstant => exact ⟨bare, beside, .constant noIntrinsic isConstant⟩
  | evaluate noIntrinsic notConstant isPrinted =>
    exact ⟨_, beside.put _, .evaluate noIntrinsic notConstant isPrinted⟩

/-- The line with two blanks in front of it for each level, without its line end. -/
def Line.chars (line : Line) : List Char :=
  List.replicate (2 * line.level) ' ' ++ line.text.toList

def renderAll (lines : List Line) : String :=
  String.ofList (lines.flatMap fun line => line.chars ++ ['\n'])

theorem toList_renderAll (lines : List Line) :
    (renderAll lines).toList = lines.flatMap fun line => line.chars ++ ['\n'] :=
  String.toList_ofList

theorem renderAll_append (first rest : List Line) :
    renderAll (first ++ rest) = renderAll first ++ renderAll rest := by
  rw [renderAll, List.flatMap_append, String.ofList_append, renderAll, renderAll]

theorem renderAll_singleton (line : Line) : renderAll [line] = line.render := by
  rw [← String.toList_inj, toList_renderAll]
  simp [Line.chars, Line.render]

theorem Writer.text_eq_renderAll (w : Writer) : w.text = renderAll w.lines.toList := by
  have written (lines : List Line) (before : String) :
      lines.foldl (fun text line => text ++ line.render) before = before ++ renderAll lines := by
    induction lines generalizing before with
    | nil => simp [renderAll]
    | cons line lines inductionHypothesis =>
      rw [List.foldl_cons, inductionHypothesis, ← renderAll_singleton, String.append_assoc,
        ← renderAll_append, List.singleton_append]
  rw [text, ← Array.foldl_toList, written, String.empty_append]

namespace Host

def opening (p : Pipeline) : String :=
  "int " ++ identifier p.name ++ "(" ++ commaSeparated (p.params.map parameter) ++ ") \x7b"

def closed (config : Config) (inside : Host) : Host :=
  (emitter config).put "\x7d" ((emitter config).leave ((emitter config).put "return 0;" inside))

theorem emitPipeline_eq_ok_iff {config : Config} {p : Pipeline} {before after : Host} :
    emitPipeline config p before = .ok () after ↔
      ∃ inside, (emitter config).Writes p.body .empty
        ((emitter config).enter (opening p) before) inside ∧ closed config inside = after := by
  simp only [emitPipeline, Emitter.indented_bind_eq_ok_iff, Emitter.line_eq_ok_iff]
  simp only [Emission.bind_eq_ok_iff, Emitter.line_eq_ok_iff]
  constructor
  · rintro ⟨_, ⟨_, inside, written, rfl⟩, rfl⟩
    exact ⟨inside, .of_emit written, rfl⟩
  · rintro ⟨inside, written, rfl⟩
    exact ⟨_, ⟨(), inside, written.emit_eq, rfl⟩, rfl⟩

def generated (config : Config) (host : Host) : Generated :=
  ⟨host.writer.text, (host.kernels.finish config).header.text,
    (host.kernels.finish config).source.text, host.regions.toList⟩

theorem generate_eq_ok_iff {config : Config} {p : Pipeline} {g : Generated} :
    generate config p = .ok g ↔
      ∃ inside, (emitter config).Writes p.body .empty
        ((emitter config).enter (opening p) (start config)) inside ∧
        (closed config inside).generated config = g := by
  constructor
  · intro succeeded
    unfold generate at succeeded
    split at succeeded
    · cases succeeded
    · next host emitted =>
      obtain ⟨inside, written, rfl⟩ := emitPipeline_eq_ok_iff.mp emitted
      cases succeeded
      exact ⟨inside, written, rfl⟩
  · rintro ⟨inside, written, rfl⟩
    have emitted := emitPipeline_eq_ok_iff.mpr ⟨inside, written, rfl⟩
    rw [generate, emitted]
    rfl

/-- The finished state holds the outermost regions of the pipeline. -/
theorem exists_holds_closed {config : Config} {p : Pipeline} {inside : Host}
    (written : (emitter config).Writes p.body .empty
      ((emitter config).enter (opening p) (start config)) inside) :
    ∃ units : List LoweredRegion,
      units.map LoweredRegion.region = p.body.outermostRegions config.naming.regionStart ∧
      (closed config inside).Holds config units := by
  have adds : Adds config (start config) (closed config inside) _ :=
    written.adds.put_right.block.put_right
  obtain ⟨units, isRegions, holds⟩ := adds [] (holds_start config)
  exact ⟨units, isRegions, by rwa [List.nil_append] at holds⟩

end Host

namespace KernelFiles.Holds

variable {config : Config} {files : KernelFiles} {units : List LoweredRegion}

theorem header_text (holds : files.Holds config units) :
    (files.finish config).header.text = renderAll (flush
      (headerPreamble config ++ units.map LoweredRegion.prototype ++ headerClosing config)) := by
  rw [Writer.text_eq_renderAll, finish, Writer.lineAll_lines, holds.header_eq, holds.header_level]
  simp [flush, headerClosing]

theorem source_text (holds : files.Holds config units) :
    (files.finish config).source.text = renderAll
      (flush (sourcePreamble config) ++ units.flatMap (LoweredRegion.definition config)) := by
  rw [Writer.text_eq_renderAll, finish, holds.source_eq]

end KernelFiles.Holds

/-- Generated files that fit together, for regions of a pipeline that were lowered. -/
structure Generated.Agrees (config : Config) (p : Pipeline) (g : Generated)
    (units : List LoweredRegion) : Prop where
  regions_eq : units.map LoweredRegion.region = p.body.outermostRegions config.naming.regionStart
  faithful : ∀ u ∈ units, u.Faithful config
  records_eq : g.regions = units.map LoweredRegion.record
  kernels_distinct : (g.regions.map RegionRecord.kernel).Nodup
  header_eq : g.header = renderAll (flush (KernelFiles.headerPreamble config ++
    units.map LoweredRegion.prototype ++ KernelFiles.headerClosing config))
  source_eq : g.source = renderAll (flush (KernelFiles.sourcePreamble config) ++
    units.flatMap (LoweredRegion.definition config))
  /-- The host code is that of the pipeline without regions, with one call for each record. -/
  driver_eq : ∃ (bare : Generated) (bareLines calls lines : List Line),
    generate config { p with body := p.body.withoutRegions config.naming.regionStart } = .ok bare ∧
    bare.regions = [] ∧ bare.driver = renderAll bareLines ∧
    calls.map Line.text = g.regions.map RegionRecord.call ∧
    Interleaved bareLines calls lines ∧ g.driver = renderAll lines

/-- Whenever files are generated, the records are the outermost regions of the pipeline and the
files agree on them. -/
theorem generated_files_agree {config : Config} {p : Pipeline} {g : Generated}
    (succeeded : generate config p = .ok g) :
    ∃ units : List LoweredRegion, g.Agrees config p units := by
  obtain ⟨inside, written, rfl⟩ := Host.generate_eq_ok_iff.mp succeeded
  obtain ⟨units, isRegions, holds⟩ := Host.exists_holds_closed written
  obtain ⟨bareInside, besideInside, bareWritten⟩ :=
    written.withoutRegions ((Host.Beside.start config).enter _)
  obtain ⟨bareUnits, noRegions, bareHolds⟩ :=
    Host.exists_holds_closed (p := { p with body := p.body.withoutRegions _ }) bareWritten
  obtain ⟨calls, texts, writers⟩ :
      (Host.closed config inside).Beside (Host.closed config bareInside) :=
    (besideInside.put _).leave.put _
  have noUnits : bareUnits = [] :=
    List.map_eq_nil_iff.mp (noRegions.trans (Stmt.outermostRegions_withoutRegions _ _))
  refine ⟨units, isRegions, holds.faithful, holds.regions_eq, ?_, holds.kernels.header_text,
    holds.kernels.source_text, _, _, calls, _,
    Host.generate_eq_ok_iff.mpr ⟨bareInside, bareWritten, rfl⟩, ?_, Writer.text_eq_renderAll _,
    texts, writers.interleaved, Writer.text_eq_renderAll _⟩
  · simp only [Host.generated, holds.regions_eq, List.map_map]
    exact holds.distinct
  · simp only [Host.generated, bareHolds.regions_eq, noUnits, List.map_nil]

def copyTwice : Pipeline :=
  let zero : Expr := .ofInt 0
  let copy : Stmt := .produce "_hls_target.copy" (.store "out" (.load "in" .default zero) zero)
  let drain : Stmt := .evaluate (.call streamSubimage .default
    [.string "stream_to_buffer", .var "out.stream" .handle, zero, zero, zero, zero])
  ⟨"copy_twice", [⟨.buffer, "in", .default⟩, ⟨.buffer, "out", .default⟩],
    .block drain (.block copy (.loop "i" zero (.ofInt 4) copy))⟩

def copyTwiceHeader : String :=
  "#ifndef HLS_TARGET_H\n#define HLS_TARGET_H\n\n" ++
  "#include <stdint.h>\n#include <algorithm>\n#include <hls_stream.h>\n" ++
  "#include \"Stencil.h\"\n\n" ++
  "void hls_target_copy(int32_t *in, int32_t *out);\n" ++
  "void hls_target_copy_1(int32_t *in, int32_t *out);\n\n" ++
  "#endif  // HLS_TARGET_H\n"

def copyTwiceSource : String :=
  "#include \"hls_target.h\"\n\n" ++
  "void hls_target_copy(int32_t *in, int32_t *out) \x7b\n" ++
  "  #pragma HLS DATAFLOW\n" ++
  "  #pragma HLS INTERFACE m_axi port=in\n  #pragma HLS INTERFACE m_axi port=out\n" ++
  "  #pragma HLS INTERFACE s_axilite port=return bundle=config\n" ++
  "  out[0] = in[0];\n\x7d\n\n" ++
  "void hls_target_copy_1(int32_t *in, int32_t *out) \x7b\n" ++
  "  #pragma HLS DATAFLOW\n" ++
  "  #pragma HLS INTERFACE m_axi port=in\n  #pragma HLS INTERFACE m_axi port=out\n" ++
  "  #pragma HLS INTERFACE s_axilite port=return bundle=config\n" ++
  "  out[0] = in[0];\n\x7d\n\n"

def copyTwiceDriver : String :=
  "#include <assert.h>\n#include <stdint.h>\n#include <algorithm>\n#include <hls_stream.h>\n" ++
  "#include \"Stencil.h\"\n#include \"hls_target.h\"\n\n" ++
  "int copy_twice(int32_t *in, int32_t *out) \x7b\n" ++
  "  hls_target_copy(in, out);\n" ++
  "  for (int i = 0; i < 0 + 4; i++) \x7b\n" ++
  "    hls_target_copy_1(in, out);\n" ++
  "  \x7d\n" ++
  "  stream_to_subimage(out_stream, 0, 0, 0, 0);\n" ++
  "  return 0;\n\x7d\n"

theorem generated_files_agree_copyTwice :
    ∃ g, generate .standard copyTwice = .ok g ∧
      g.regions.map RegionRecord.call =
        ["hls_target_copy(in, out);", "hls_target_copy_1(in, out);"] ∧
      g.header = copyTwiceHeader ∧ g.source = copyTwiceSource ∧ g.driver = copyTwiceDriver ∧
      ∃ units, g.Agrees .standard copyTwice units := by
  obtain ⟨g, succeeded, calls⟩ : ∃ g, generate .standard copyTwice = .ok g ∧
      g.regions.map RegionRecord.call =
        ["hls_target_copy(in, out);", "hls_target_copy_1(in, out);"] := ⟨_, rfl, rfl⟩
  have texts : ((generate .standard copyTwice).toOption.map fun g =>
      (g.header, g.source, g.driver)) =
        some (copyTwiceHeader, copyTwiceSource, copyTwiceDriver) := by decide +kernel
  rw [succeeded] at texts
  obtain ⟨header_eq, others_eq⟩ := Prod.mk.inj (Option.some.inj texts)
  obtain ⟨source_eq, driver_eq⟩ := Prod.mk.inj others_eq
  exact ⟨g, succeeded, calls, header_eq, source_eq, driver_eq, generated_files_agree succeeded⟩

end StreamSynth
