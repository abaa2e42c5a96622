import Mathlib.Data.List.Forall2
import StreamSynth.Proofs.DriverCalls
import StreamSynth.Proofs.RegionSite

/-!
# Calls of kernels in the host code

A region becomes one line of the host code, which calls its kernel. The line stands behind those of
all constructs around the region, and the arguments are those of the environment that these
constructs make. Whatever is known of the arguments of a kernel is read off this.
-/

namespace StreamSynth

inductive Construct.WrittenAs (config : Config) : Construct → String → Prop
  | define (name) {value printed} : value.print = .ok printed →
      WrittenAs config (.define name value) (letLine name value.type printed)
  | loop (name low size) : WrittenAs config (.loop name) (loopLine name low size)
  | array (name type extents size) :
      WrittenAs config (.allocate name type extents) (arrayLine type name size)
  | heap (name type extents size) :
      WrittenAs config (.allocate name type extents) (newLine type name size)
  | stream {name type bounds stencil} : config.naming.isStream name = true →
      StencilType.ofBounds .streaming type bounds config.streamDepth = .ok stencil →
      WrittenAs config (.realize name type bounds)
        (stencil.generated ++ " " ++ identifier name ++ ";")
  | stencil {name type bounds stencil} : config.naming.isStream name = false →
      StencilType.ofBounds .unpacked type bounds 0 = .ok stencil →
      WrittenAs config (.realize name type bounds)
        (stencil.generated ++ " " ++ identifier name ++ ";")
  | realizedArray {name} (type bounds size) : config.naming.isStream name = false →
      WrittenAs config (.realize name type bounds) (arrayLine type name size)

def WrittenAround (config : Config) (around : List Construct) (lines : List Line) : Prop :=
  ∀ c ∈ around, ∃ line ∈ lines, c.WrittenAs config line.text

theorem WrittenAround.mono {config : Config} {around : List Construct} {lines more : List Line}
    (written : WrittenAround config around lines) (further : lines <+: more) :
    WrittenAround config around more := by
  intro c isAround
  obtain ⟨line, isLine, isWritten⟩ := written c isAround
  exact ⟨line, further.subset isLine, isWritten⟩

/-- The record is that of the region at the site. Its arguments are those in the environment there,
and a line of the host code calls its kernel behind the lines of the constructs around. -/
structure RegionSite.CalledIn (config : Config) (lines : List Line) (site : RegionSite)
    (record : RegionRecord) : Prop where
  name_eq : site.region.name = config.naming.regionStart ++ record.target
  args_eq : ∃ (env : Env) (args : List Argument), env.OfConstructs config site.around ∧
    (Closure.capture site.region.body).arguments env.stencils config.naming record.target =
      .ok args ∧ record.args = args.map (Argument.annotate env.sizes)
  called : ∃ (before : List Line) (level : Nat) (after : List Line),
    lines = before ++ ⟨level, record.call⟩ :: after ∧ WrittenAround config site.around before

theorem RegionSite.CalledIn.mono {config : Config} {lines more : List Line} {site : RegionSite}
    {record : RegionRecord} (calledIn : site.CalledIn config lines record)
    (further : lines <+: more) : site.CalledIn config more record := by
  obtain ⟨name_eq, args_eq, before, level, after, rfl, written⟩ := calledIn
  obtain ⟨last, rfl⟩ := further
  exact ⟨name_eq, args_eq, before, level, after ++ last, by simp, written⟩

namespace Host

/-- The state goes on by lines of the host code only. -/
structure Onward (before after : Host) : Prop where
  lines_grow : before.writer.lines.toList <+: after.writer.lines.toList
  regions_eq : after.regions = before.regions

variable {config : Config} {before middle after : Host}

namespace Onward

theorem refl (host : Host) : Onward host host := ⟨List.prefix_refl _, rfl⟩

theorem trans (left : Onward before middle) (right : Onward middle after) : Onward before after :=
  ⟨left.lines_grow.trans right.lines_grow, right.regions_eq.trans left.regions_eq⟩

theorem onWriter {change : Writer → Writer} {host : Host}
    (grows : host.writer.lines.toList <+: (change host.writer).lines.toList) :
    Onward host ((emitter config).onWriter change host) := ⟨grows, rfl⟩

theorem put (text : String) (host : Host) : Onward host ((emitter config).put text host) :=
  onWriter ⟨_, (Writer.Grows.line host.writer text).lines_eq.symm⟩

theorem enter (opening : String) (host : Host) :
    Onward host ((emitter config).enter opening host) :=
  (put opening host).trans (onWriter (List.prefix_refl _))

theorem leave (host : Host) : Onward host ((emitter config).leave host) :=
  onWriter (List.prefix_refl _)

theorem close (host : Host) :
    Onward host ((emitter config).put "\x7d" ((emitter config).leave host)) :=
  (leave host).trans (put _ _)

theorem allocate (name : String) (host : Host) :
    Onward host ((emitter config).onWriter (·.allocate name) host) :=
  onWriter (List.prefix_refl _)

theorem release (name text : String) (host : Host) :
    Onward host ((emitter config).onWriter (·.release name text) host) := by
  obtain ⟨added, grows⟩ := Writer.Grows.release host.writer name text
  exact onWriter ⟨added, grows.lines_eq.symm⟩

end Onward

structure Opens (config : Config) (c : Construct) (before after : Host) : Prop
    extends Onward before after where
  written : ∃ line ∈ after.writer.lines.toList, c.WrittenAs config line.text

namespace Opens

variable {c : Construct} {text : String}

theorem put (isWritten : c.WrittenAs config text) (host : Host) :
    Opens config c host ((emitter config).put text host) where
  toOnward := .put text host
  written := by
    refine ⟨⟨host.writer.level, text⟩, ?_, isWritten⟩
    change _ ∈ (host.writer.line text).lines.toList
    simp [Writer.line]

theorem enter (isWritten : c.WrittenAs config text) (host : Host) :
    Opens config c host ((emitter config).enter text host) :=
  ⟨.enter text host, (put isWritten host).written⟩

theorem declared {stencil : StencilType} {name : String}
    (isWritten : c.WrittenAs config (stencil.generated ++ " " ++ identifier name ++ ";"))
    (host : Host) : Opens config c host ((emitter config).declared stencil name host) where
  toOnward := .onWriter ⟨_, (Writer.lineAll_lines host.writer _).symm⟩
  written := by
    refine ⟨⟨host.writer.level, _⟩, ?_, isWritten⟩
    change _ ∈ (host.writer.lineAll _).lines.toList
    rw [Writer.lineAll_lines]
    simp

theorem behind (onward : Onward before middle) (opens : Opens config c middle after) :
    Opens config c before after :=
  ⟨onward.trans opens.toOnward, opens.written⟩

end Opens

/-- From one state to the other the regions at the given sites are called and recorded. -/
def Calls (config : Config) (before after : Host) (sites : List RegionSite) : Prop :=
  before.writer.lines.toList <+: after.writer.lines.toList ∧
  ∃ records, after.regions.toList = before.regions.toList ++ records ∧
    List.Forall₂ (RegionSite.CalledIn config after.writer.lines.toList) sites records

namespace Calls

variable {around : List Construct} {sites : List RegionSite}

theorem of_onward (onward : Onward before after) : Calls config before after [] :=
  ⟨onward.lines_grow, [], by rw [onward.regions_eq, List.append_nil], .nil⟩

theorem trans {first second : List RegionSite} (left : Calls config before middle first)
    (right : Calls config middle after second) : Calls config before after (first ++ second) := by
  obtain ⟨toMiddle, some, isMiddle, called⟩ := left
  obtain ⟨toAfter, more, isAfter, moreCalled⟩ := right
  refine ⟨toMiddle.trans toAfter, some ++ more, by rw [isAfter, isMiddle, List.append_assoc], ?_⟩
  exact List.rel_append (called.imp fun _ _ calledIn => calledIn.mono toAfter) moreCalled

theorem andThen (calls : Calls config before middle sites) (onward : Onward middle after) :
    Calls config before after sites := by
  have both := calls.trans (of_onward onward)
  rwa [List.append_nil] at both

/-- Further lines take nothing away from what is written around. -/
theorem behind (written : WrittenAround config around before.writer.lines.toList)
    (onward : Onward before middle)
    (calls : WrittenAround config around middle.writer.lines.toList →
      Calls config middle after sites) : Calls config before after sites :=
  (of_onward onward).trans (calls (written.mono onward.lines_grow))

theorem inside (written : WrittenAround config around before.writer.lines.toList) {c : Construct}
    (opens : Opens config c before middle)
    (calls : WrittenAround config (c :: around) middle.writer.lines.toList →
      Calls config middle after sites) : Calls config before after sites := by
  refine behind written opens.toOnward fun writtenAround => calls ?_
  exact List.forall_mem_cons.mpr ⟨opens.written, writtenAround⟩

theorem of_lowerRegion {env : Env} {target : String} {body : Stmt}
    (ofConstructs : env.OfConstructs config around)
    (written : WrittenAround config around before.writer.lines.toList)
    (succeeded : lowerRegion config target body env before = .ok () after) :
    Calls config before after [⟨around, config.naming.regionStart ++ target, body⟩] := by
  obtain ⟨args, kernels, captured, _, rfl⟩ := lowerRegion_ok succeeded
  have lines (text : String) := (Writer.Grows.line before.writer text).lines_eq
  refine ⟨⟨_, (lines _).symm⟩, [_], Array.toList_push, .cons ⟨rfl, ?_, ?_⟩ .nil⟩
  · exact ⟨env, args, ofConstructs, captured, rfl⟩
  · exact ⟨before.writer.lines.toList, before.writer.level, [], lines _, written⟩

end Calls

end Host

open Host in
/-- A whole statement calls its regions, each behind the lines of what stands around it. -/
theorem Emitter.Writes.calls {config : Config} {s : Stmt} {env : Env} {before after : Host}
    (writes : (emitter config).Writes s env before after) {around : List Construct}
    (ofConstructs : env.OfConstructs config around)
    (written : WrittenAround config around before.writer.lines.toList) :
    Calls config before after (s.regionSites config.naming.regionStart around) := by
  induction writes generalizing around with
  | letIn known isPrinted _ body =>
    exact .inside written (.put (.define _ isPrinted) _) (body (ofConstructs.define known _))
  | assert _ => exact .of_onward (.put _ _)
  | region isRegion lowered =>
    obtain ⟨target, rfl, rfl⟩ := region_of_some isRegion
    have called := Calls.of_lowerRegion ofConstructs written lowered
    simpa [Stmt.regionSites] using called
  | produce noRegion _ body =>
    rw [Stmt.regionSites, if_neg (region?_eq_none_iff.mp noRegion)]
    exact .behind written (.put _ _) (body ofConstructs)
  | consume _ body => exact .behind written (.put _ _) (body ofConstructs)
  | loop _ _ _ body =>
    have called := Calls.inside written (.enter (.loop _ _ _) _) (body (ofConstructs.loop _))
    exact called.andThen (.close _)
  | store _ _ => exact .of_onward (.put _ _)
  | provide _ _ => exact .of_onward (.put _ _)
  | allocateArray known _ _ _ body =>
    exact .inside written (.put (.array _ _ _ _) _) (body (ofConstructs.allocate known _))
  | allocateHeap known _ _ _ _ body =>
    exact .inside written (.behind (.allocate _ _) (.put (.heap _ _ _ _) _))
      (body (ofConstructs.allocate known _))
  | freeStream _ => exact .of_onward (.refl _)
  | free _ => exact .of_onward (.release _ _ _)
  | realizeStream isStream isType _ body =>
    refine .inside written (.declared (.stream isStream isType) _) (body (ofConstructs.realize ?_))
    rw [if_pos (by exact isStream)]
    exact isType
  | realizeStencil notStream isStencil isType _ body =>
    refine .inside written (.declared (.stencil notStream isType) _)
      (body (ofConstructs.realize ?_))
    rw [if_neg (by exact Bool.eq_false_iff.mp notStream)]
    exact ⟨isStencil, isType⟩
  | realizeArray notStream notStencil _ _ _ body =>
    exact .inside written (.put (.realizedArray _ _ _ notStream) _)
      (body (ofConstructs.realizeArray notStream notStencil _ _))
  | block _ _ _ first rest =>
    have called := first ofConstructs written
    exact called.trans (rest ofConstructs (written.mono called.1))
  | drain drains _ _ _ rest first =>
    -- What is moved behind the rest has no region.
    obtain ⟨value, rfl⟩ := exists_evaluate_of_isDrain drains
    have called := rest ofConstructs written
    have moved := called.trans (first ofConstructs (written.mono called.1))
    rwa [Stmt.regionSites, List.append_nil] at moved
  | ifThen _ _ thenCase =>
    have called := Calls.behind written (.enter _ _) (thenCase ofConstructs)
    exact called.andThen (.close _)
  | ifThenElse _ _ _ thenCase elseCase =>
    have thenCalled := Calls.behind written (.enter _ _) (thenCase ofConstructs)
    have elseCalled := Calls.behind (written.mono thenCalled.1)
      ((Onward.leave _).trans (.enter _ _)) (elseCase ofConstructs)
    exact thenCalled.trans (elseCalled.andThen (.close _))
  | intrinsic isIntrinsic evaluated =>
    obtain ⟨text, rfl, _⟩ := intrinsic_line isIntrinsic evaluated
    exact .of_onward (.put _ _)
  | constant _ _ => exact .of_onward (.refl _)
  | evaluate _ _ _ => exact .of_onward (.put _ _)

/-- Whenever files are generated, the regions of the pipeline are called in program order. -/
theorem calledIn_of_generate {config : Config} {p : Pipeline} {g : Generated}
    (succeeded : generate config p = .ok g) :
    ∃ lines, g.driver = renderAll lines ∧ List.Forall₂ (RegionSite.CalledIn config lines)
      (p.body.regionSites config.naming.regionStart []) g.regions := by
  obtain ⟨inside, written, rfl⟩ := Host.generate_eq_ok_iff.mp succeeded
  have calls := written.calls (Env.OfConstructs.empty config) (List.forall_mem_nil _)
  have closing : Host.Onward inside (Host.closed config inside) :=
    (Host.Onward.put _ _).trans (.close _)
  obtain ⟨_, records, areRecords, called⟩ := calls.andThen closing
  refine ⟨_, Writer.text_eq_renderAll _, ?_⟩
  change List.Forall₂ _ _ (Host.closed config inside).regions.toList
  rw [areRecords]
  exact called

end StreamSynth
