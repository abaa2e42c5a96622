import StreamSynth.Proofs.FreshName
import StreamSynth.Proofs.Growth
import StreamSynth.Region.Host

/-!
# Regions and their kernels

The hardware regions of a statement are its outermost producers with the name of a region, in
program order. Writing a statement for the host lowers each of them once and in this order,
whatever drains are moved: a drain holds no region. The kernel files and the region records are
therefore the same list of lowered regions, seen three times.
-/

namespace StreamSynth

structure Region where
  name : String
  body : Stmt

def Stmt.outermostRegions (start : String) : Stmt → List Region
  | .produce name body =>
    if start.toList.isPrefixOf name.toList then [⟨name, body⟩] else body.outermostRegions start
  | .letIn _ _ body | .consume _ body | .loop _ _ _ body | .allocate _ _ _ body
  | .realize _ _ _ body => body.outermostRegions start
  | .block first rest => first.outermostRegions start ++ rest.outermostRegions start
  | .ifThen _ thenCase => thenCase.outermostRegions start
  | .ifThenElse _ thenCase elseCase =>
    thenCase.outermostRegions start ++ elseCase.outermostRegions start
  | .assert _ _ | .store _ _ _ | .provide _ _ _ | .free _ | .evaluate _ => []

theorem eq_append_of_afterStart? {name start rest : String}
    (found : afterStart? name start = some rest) : name = start ++ rest := by
  unfold afterStart? at found
  split at found
  · next starts =>
    obtain ⟨tail, isTail⟩ := List.isPrefixOf_iff_prefix.mp starts
    cases found
    apply String.toList_injective
    simp [← isTail]
  · cases found

def RegionRecord.signature (r : RegionRecord) : String :=
  "void " ++ r.kernel ++ "(" ++ commaSeparated (r.args.map Argument.parameter) ++ ")"

def RegionRecord.call (r : RegionRecord) : String :=
  r.kernel ++ "(" ++ commaSeparated (r.args.map (identifier ·.name)) ++ ");"

/-- A region, its record and the lines that its body becomes in the kernel. -/
structure LoweredRegion where
  region : Region
  record : RegionRecord
  body : List Line

def flush (texts : List String) : List Line := texts.map (⟨0, ·⟩)

namespace LoweredRegion

def prototype (u : LoweredRegion) : String := u.record.signature ++ ";"

def definition (config : Config) (u : LoweredRegion) : List Line :=
  ⟨0, u.record.signature ++ " \x7b"⟩ ::
    ((KernelFiles.directives config u.record.args).map (⟨1, ·⟩) ++ u.body ++ flush ["\x7d", ""])

structure Faithful (config : Config) (u : LoweredRegion) : Prop where
  name_eq : u.region.name = config.naming.regionStart ++ u.record.target
  /-- The arguments are those of the closure of the region, with the sizes known around it. -/
  args_eq : ∃ (env : Env) (args : List Argument),
    (Closure.capture u.region.body).arguments env.stencils config.naming u.record.target =
      .ok args ∧ u.record.args = args.map (Argument.annotate env.sizes)
  /-- The name of the kernel is printed as it is. -/
  kernel_eq : identifier u.record.kernel = u.record.kernel
  /-- The lines are those that the body of the region is written as. -/
  body_written : ∃ before after : Writer, before.level = 1 ∧
    (Emitter.plain config.naming config.streamDepth).emit u.region.body
      ⟨.empty, KernelFiles.argumentScope u.record.args⟩ before = .ok () after ∧
    before.Grows u.body after

end LoweredRegion

namespace KernelFiles

def headerPreamble (config : Config) : List String :=
  ["#ifndef " ++ guard config, "#define " ++ guard config, ""] ++
    config.kernelHeaders.map ("#include " ++ ·) ++ [""]

def headerClosing (config : Config) : List String := ["", "#endif  // " ++ guard config]

def sourcePreamble (config : Config) : List String :=
  ["#include \"" ++ config.headerName ++ "\"", ""]

variable {config : Config} {name : String} {args : List Argument} {body : Stmt}
  {before after : KernelFiles}

theorem onSource_eq_ok_iff {steps : Emission Writer Unit} {u : Unit} :
    onSource steps before = .ok u after ↔
      ∃ source, steps before.source = .ok () source ∧ { before with source } = after := by
  rw [onSource]
  cases steps before.source with
  | ok _ source => simp
  | error error source => simp

open Emission in
theorem emitKernel_eq_ok_iff :
    emitKernel config name args body before = .ok () after ↔
      ∃ inside : Writer,
        (Emitter.plain config.naming config.streamDepth).Writes body ⟨.empty, argumentScope args⟩
          ((before.source.line (signature name args ++ " \x7b")).indent.lineAll
            (directives config args)) inside ∧
        after = ⟨before.header.line (signature name args ++ ";"),
          inside.dedent.lineAll ["\x7d", ""]⟩ := by
  simp only [emitKernel, modify_bind_eq_ok_iff, onSource_eq_ok_iff,
    Emitter.indented_bind_eq_ok_iff, modify_eq_ok_iff, Emitter.emit_eq_ok_iff]
  constructor
  · rintro ⟨_, ⟨inside, written, rfl⟩, rfl⟩
    exact ⟨inside, written, rfl⟩
  · rintro ⟨inside, written, rfl⟩
    exact ⟨_, ⟨inside, written, rfl⟩, rfl⟩

/-- The files hold the kernels of the given regions, in order. -/
structure Holds (config : Config) (files : KernelFiles) (units : List LoweredRegion) : Prop where
  header_eq : files.header.lines.toList =
    flush (headerPreamble config ++ units.map LoweredRegion.prototype)
  header_level : files.header.level = 0
  source_eq : files.source.lines.toList =
    flush (sourcePreamble config) ++ units.flatMap (LoweredRegion.definition config)
  source_level : files.source.level = 0

theorem holds_start (config : Config) : (start config).Holds config [] where
  header_eq := by simp [start, Writer.lineAll_lines, Writer.empty, headerPreamble, flush]
  header_level := Writer.lineAll_level _ _
  source_eq := by simp [start, Writer.lineAll_lines, Writer.empty, sourcePreamble, flush]
  source_level := Writer.lineAll_level _ _

/-- A kernel is put behind those that the files hold already. -/
theorem Holds.emitKernel {units : List LoweredRegion} (holds : before.Holds config units)
    (region : Region) (record : RegionRecord) (unchanged : identifier record.kernel = record.kernel)
    (succeeded : emitKernel config record.kernel record.args region.body before = .ok () after) :
    ∃ lines, (∃ low high : Writer, low.level = 1 ∧
        (Emitter.plain config.naming config.streamDepth).emit region.body
          ⟨.empty, argumentScope record.args⟩ low = .ok () high ∧ low.Grows lines high) ∧
      after.Holds config (units ++ [⟨region, record, lines⟩]) := by
  have signature_eq : signature record.kernel record.args = record.signature := by
    rw [signature, unchanged, RegionRecord.signature]
  obtain ⟨inside, written, rfl⟩ := emitKernel_eq_ok_iff.mp succeeded
  rw [signature_eq] at written ⊢
  obtain ⟨lines, grows⟩ := written.plain_grows
  have closed := ((Writer.Grows.lineAll _ _).trans grows).block
  have defined := closed.trans (Writer.Grows.lineAll _ ["\x7d", ""])
  refine ⟨lines, ⟨_, inside, ?_, written.emit_eq, grows⟩, ?_, holds.header_level, ?_, ?_⟩
  · simp [Writer.indent, Writer.line, holds.source_level]
  · simp [Writer.line, holds.header_eq, holds.header_level, flush, LoweredRegion.prototype]
  · rw [defined.lines_eq, holds.source_eq, closed.level_eq]
    simp [LoweredRegion.definition, Writer.indent, Writer.line, holds.source_level, flush]
  · exact defined.level_eq.trans holds.source_level

end KernelFiles

namespace Host

variable {config : Config} {target : String} {body : Stmt} {env : Env} {before after : Host}

theorem onKernels_bind_eq_ok_iff {steps : Emission KernelFiles Unit}
    {next : Unit → Emission Host Unit} :
    (onKernels steps >>= next) before = .ok () after ↔
      ∃ kernels, steps before.kernels = .ok () kernels ∧
        next () { before with kernels } = .ok () after := by
  rw [Emission.bind_eq_ok_iff, onKernels]
  cases steps before.kernels with
  | ok _ kernels =>
    constructor
    · rintro ⟨_, _, ⟨⟩, succeeded⟩
      exact ⟨kernels, rfl, succeeded⟩
    · rintro ⟨_, ⟨⟩, succeeded⟩
      exact ⟨_, _, rfl, succeeded⟩
  | error error kernels => simp

def nextKernel (config : Config) (target : String) (host : Host) : String × FreshNames :=
  host.names.unique (identifier (config.kernelStem ++ "_" ++ target))

theorem freshKernel_bind_eq_ok_iff {next : String → Emission Host Unit} :
    (freshKernel config target >>= next) before = .ok () after ↔
      next (nextKernel config target before).1
        { before with names := (nextKernel config target before).2 } = .ok () after := by
  rw [Emission.bind_eq_ok_iff]
  constructor
  · rintro ⟨_, _, ⟨⟩, succeeded⟩
    exact succeeded
  · exact fun succeeded => ⟨_, _, rfl, succeeded⟩

open Emission in
theorem lowerRegion_ok (succeeded : lowerRegion config target body env before = .ok () after) :
    ∃ (args : List Argument) (kernels : KernelFiles),
      let record : RegionRecord := ⟨target, (nextKernel config target before).1,
        args.map (Argument.annotate env.sizes)⟩
      (Closure.capture body).arguments env.stencils config.naming target = .ok args ∧
      KernelFiles.emitKernel config record.kernel record.args body before.kernels =
        .ok () kernels ∧
      after = ⟨before.writer.line record.call, kernels, (nextKernel config target before).2,
        before.regions.push record⟩ := by
  simp only [lowerRegion, ofExcept_bind_eq_ok_iff, freshKernel_bind_eq_ok_iff,
    onKernels_bind_eq_ok_iff, modify_bind_eq_ok_iff, modify_eq_ok_iff] at succeeded
  obtain ⟨args, captured, kernels, written, rfl⟩ := succeeded
  exact ⟨args, kernels, captured, written, rfl⟩

theorem transfer_eq_ok_iff {args : List Expr} :
    transfer args before = .ok () after ↔
      ¬(args.length < 6 ∨ 12 < args.length) ∧
      ∃ direction, Direction.of args = .ok direction ∧
      ∃ printed, Expr.printArgs args.tail = .ok printed ∧
        before.onWriter (·.line (direction.function ++ "(" ++ printed ++ ");")) = after := by
  by_cases wrong : args.length < 6 ∨ 12 < args.length
  · simp [transfer, wrong, Emission.bind_eq_ok_iff, Emission.throw_ne_ok]
  · simp [transfer, wrong, Emission.ofExcept_bind_eq_ok_iff, Emission.modify_eq_ok_iff]

theorem copyToStencil_eq_ok_iff {args : List Expr} :
    copyToStencil args before = .ok () after ↔
      args.length = 2 ∧ ∃ printed, Expr.printArgs args = .ok printed ∧
        before.onWriter (·.line (bufferToStencil ++ "(" ++ printed ++ ");")) = after := by
  by_cases two : args.length = 2
  · simp [copyToStencil, two, Emission.ofExcept_bind_eq_ok_iff, Emission.modify_eq_ok_iff]
  · simp [copyToStencil, two, Emission.bind_eq_ok_iff, Emission.throw_ne_ok]

/-- A transfer writes one line, which does not depend on the state. -/
theorem intrinsic_line {value : Expr} {write : Emission Host Unit}
    (isIntrinsic : (emitter config).intrinsic? value = some write)
    (written : write before = .ok () after) :
    ∃ text, after = (emitter config).put text before ∧
      ∀ host : Host, write host = .ok () ((emitter config).put text host) := by
  change intrinsic? value = some write at isIntrinsic
  unfold intrinsic? at isIntrinsic
  split at isIntrinsic
  · split at isIntrinsic
    · cases isIntrinsic
      obtain ⟨enough, direction, stated, printed, isPrinted, rfl⟩ := transfer_eq_ok_iff.mp written
      exact ⟨_, rfl, fun host =>
        transfer_eq_ok_iff.mpr ⟨enough, direction, stated, printed, isPrinted, rfl⟩⟩
    · split at isIntrinsic
      · cases isIntrinsic
        obtain ⟨two, printed, isPrinted, rfl⟩ := copyToStencil_eq_ok_iff.mp written
        exact ⟨_, rfl, fun host => copyToStencil_eq_ok_iff.mpr ⟨two, printed, isPrinted, rfl⟩⟩
      · cases isIntrinsic
  · cases isIntrinsic

structure Holds (config : Config) (host : Host) (units : List LoweredRegion) : Prop where
  faithful : ∀ u ∈ units, u.Faithful config
  kernels : host.kernels.Holds config units
  regions_eq : host.regions.toList = units.map LoweredRegion.record
  issued_eq : host.names.issued = (units.map (·.record.kernel)).reverse
  distinct : (units.map (·.record.kernel)).Nodup

theorem holds_start (config : Config) : (start config).Holds config [] where
  faithful := by simp
  kernels := KernelFiles.holds_start config
  regions_eq := rfl
  issued_eq := rfl
  distinct := List.nodup_nil

/-- Lowering a region puts it behind those that the state holds already. -/
theorem Holds.lowerRegion {units : List LoweredRegion} (holds : before.Holds config units)
    (succeeded : lowerRegion config target body env before = .ok () after) :
    ∃ u : LoweredRegion, u.region = ⟨config.naming.regionStart ++ target, body⟩ ∧
      after.Holds config (units ++ [u]) := by
  obtain ⟨args, kernels, captured, written, rfl⟩ := lowerRegion_ok succeeded
  have fresh : (nextKernel config target before).1 ∉ before.names.issued :=
    before.names.unique_notMem _
  have unchanged : identifier (nextKernel config target before).1 =
      (nextKernel config target before).1 :=
    (identifier_eq_self_iff _).mpr
      (before.names.isIdentifier_unique _ (isIdentifier_identifier _))
  obtain ⟨lines, bodyWritten, kernelsHold⟩ :=
    holds.kernels.emitKernel ⟨config.naming.regionStart ++ target, body⟩
      ⟨target, _, args.map (Argument.annotate env.sizes)⟩ unchanged written
  refine ⟨_, rfl, ?_, kernelsHold, ?_, ?_, ?_⟩
  · intro u membership
    rcases List.mem_append.mp membership with earlier | last
    · exact holds.faithful u earlier
    · rw [List.mem_singleton.mp last]
      exact ⟨rfl, ⟨env, args, captured, rfl⟩, unchanged, bodyWritten⟩
  · simp [holds.regions_eq]
  · simp [nextKernel, holds.issued_eq]
  · rw [holds.issued_eq, List.mem_reverse] at fresh
    rw [List.map_append, List.nodup_append]
    refine ⟨holds.distinct, by simp, ?_⟩
    intro earlier membership last isLast same
    have isFresh : last = (nextKernel config target before).1 := List.mem_singleton.mp isLast
    exact fresh (isFresh ▸ same ▸ membership)

def Adds (config : Config) (before after : Host) (regions : List Region) : Prop :=
  ∀ units, before.Holds config units →
    ∃ more : List LoweredRegion, more.map LoweredRegion.region = regions ∧
      after.Holds config (units ++ more)

namespace Adds

variable {middle : Host} {first second : List Region}

theorem refl (config : Config) (host : Host) : Adds config host host [] :=
  fun units holds => ⟨[], rfl, by rwa [List.append_nil]⟩

theorem trans (left : Adds config before middle first) (right : Adds config middle after second) :
    Adds config before after (first ++ second) := by
  intro units holds
  obtain ⟨more, rfl, holdsMiddle⟩ := left units holds
  obtain ⟨yetMore, rfl, holdsAfter⟩ := right _ holdsMiddle
  exact ⟨more ++ yetMore, List.map_append, by rwa [← List.append_assoc]⟩

theorem onWriter_left {change : Writer → Writer}
    (adds : Adds config ((emitter config).onWriter change before) after first) :
    Adds config before after first :=
  fun units holds => adds units
    ⟨holds.faithful, holds.kernels, holds.regions_eq, holds.issued_eq, holds.distinct⟩

theorem onWriter_right {change : Writer → Writer} (adds : Adds config before after first) :
    Adds config before ((emitter config).onWriter change after) first := by
  intro units holds
  obtain ⟨more, isFirst, holdsAfter⟩ := adds units holds
  exact ⟨more, isFirst, holdsAfter.faithful, holdsAfter.kernels, holdsAfter.regions_eq,
    holdsAfter.issued_eq, holdsAfter.distinct⟩

theorem put_left {text : String}
    (adds : Adds config ((emitter config).put text before) after first) :
    Adds config before after first := by
  unfold Emitter.put at adds
  exact adds.onWriter_left

theorem put_right {text : String} (adds : Adds config before after first) :
    Adds config before ((emitter config).put text after) first := by
  unfold Emitter.put
  exact adds.onWriter_right

theorem declared_left {type : StencilType} {name : String}
    (adds : Adds config ((emitter config).declared type name before) after first) :
    Adds config before after first := by
  unfold Emitter.declared at adds
  exact adds.onWriter_left

theorem block {opening : String} {inside : Host}
    (adds : Adds config ((emitter config).enter opening before) inside first) :
    Adds config before ((emitter config).leave inside) first := by
  unfold Emitter.enter at adds
  unfold Emitter.leave
  exact adds.onWriter_left.put_left.onWriter_right

end Adds

theorem region_of_some {name : String} {write : Env → Emission Host Unit}
    (isRegion : (emitter config).region? name body = some write) :
    ∃ target, name = config.naming.regionStart ++ target ∧
      write = Host.lowerRegion config target body := by
  obtain ⟨target, isTarget, rfl⟩ := Option.map_eq_some_iff.mp isRegion
  exact ⟨target, eq_append_of_afterStart? isTarget, rfl⟩

theorem region?_eq_none_iff {name : String} :
    (emitter config).region? name body = none ↔
      ¬ config.naming.regionStart.toList.isPrefixOf name.toList = true := by
  simp [emitter, Naming.regionTarget?, afterStart?]

theorem exists_evaluate_of_isDrain {s : Stmt} (drains : isDrain s = .ok true) :
    ∃ value, s = .evaluate value := by
  cases s with
  | evaluate value => exact ⟨value, rfl⟩
  | _ => simp [isDrain] at drains

end Host

/-- A whole statement lowers its outermost regions, each once and in program order. -/
theorem Emitter.Writes.adds {config : Config} {s : Stmt} {env : Env} {before after : Host}
    (writes : (Host.emitter config).Writes s env before after) :
    Host.Adds config before after (s.outermostRegions config.naming.regionStart) := by
  induction writes with
  | letIn _ _ _ body => exact body.put_left
  | assert _ => exact (Host.Adds.refl config _).put_right
  | @region name body env write before after isRegion written =>
    obtain ⟨target, rfl, rfl⟩ := Host.region_of_some isRegion
    intro units holds
    obtain ⟨u, isRegion, holdsAfter⟩ := holds.lowerRegion written
    exact ⟨[u], by simp [Stmt.outermostRegions, isRegion], holdsAfter⟩
  | produce noRegion _ body =>
    rw [Stmt.outermostRegions, if_neg (Host.region?_eq_none_iff.mp noRegion)]
    exact body.put_left
  | consume _ body => exact body.put_left
  | loop _ _ _ body => exact body.block.put_right
  | store _ _ => exact (Host.Adds.refl config _).put_right
  | provide _ _ => exact (Host.Adds.refl config _).put_right
  | allocateArray _ _ _ _ body => exact body.put_left
  | allocateHeap _ _ _ _ _ body => exact body.put_left.onWriter_left
  | freeStream _ => exact Host.Adds.refl config _
  | free _ => exact (Host.Adds.refl config _).onWriter_right
  | realizeStream _ _ _ body => exact body.declared_left
  | realizeStencil _ _ _ _ body => exact body.declared_left
  | realizeArray _ _ _ _ _ body => exact body.put_left
  | block _ _ _ first rest => exact first.trans rest
  | drain drains _ _ _ rest first =>
    -- What is moved behind the rest has no region.
    obtain ⟨value, rfl⟩ := Host.exists_evaluate_of_isDrain drains
    have moved := rest.trans first
    rwa [Stmt.outermostRegions, List.append_nil] at moved
  | ifThen _ _ thenCase => exact thenCase.block.put_right
  | ifThenElse _ _ _ thenCase elseCase => exact thenCase.block.trans elseCase.block.put_right
  | intrinsic isIntrinsic written =>
    obtain ⟨text, rfl, _⟩ := Host.intrinsic_line isIntrinsic written
    exact (Host.Adds.refl config _).put_right
  | constant _ _ => exact Host.Adds.refl config _
  | evaluate _ _ _ => exact (Host.Adds.refl config _).put_right

end StreamSynth
