import StreamSynth.Proofs.HeapLine
import StreamSynth.Proofs.LineStructure

/-!
# The heap arrays in the lines of a statement

The places where a statement allocates a heap array or frees an array stand in the program in the
order in which they are written, since a statement that is put behind another one is a transfer and
has no such place. An allocation always leaves a line, and a free leaves one if an array of the name
is live. So the lines about the heap can be told from the places, and a run that stops early has
written those of the first places.
-/

namespace StreamSynth

inductive Storage where
  | stack
  | heap
  deriving DecidableEq

/-- An array of constant size is on the stack. -/
def Storage.ofExtents (extents : List Expr) : Storage :=
  if ((Expr.product extents).bind Expr.int?).isSome then .stack else .heap

/-- A step on the heap, and the arrays whose allocations enclose it in the program. -/
structure HeapSite where
  step : HeapStep
  scope : Scope Storage

/-- The places of a statement where the emitter may write about the heap, in program order. The
body of a region is written elsewhere. -/
def Emitter.heapSites {σ : Type} (e : Emitter σ) : Stmt → Scope Storage → List HeapSite
  | .allocate name _ extents body, scope =>
    match Storage.ofExtents extents with
    | .stack => e.heapSites body (scope.push name .stack)
    | .heap => ⟨.allocate name, scope⟩ :: e.heapSites body (scope.push name .heap)
  | .free name, scope => if e.naming.isStream name then [] else [⟨.free name, scope⟩]
  | .produce name body, scope =>
    if (e.region? name body).isSome then [] else e.heapSites body scope
  | .letIn _ _ body, scope | .consume _ body, scope | .loop _ _ _ body, scope
  | .realize _ _ _ body, scope => e.heapSites body scope
  | .block first rest, scope => e.heapSites first scope ++ e.heapSites rest scope
  | .ifThen _ thenCase, scope => e.heapSites thenCase scope
  | .ifThenElse _ thenCase elseCase, scope =>
    e.heapSites thenCase scope ++ e.heapSites elseCase scope
  | .assert _ _, _ | .store _ _ _, _ | .provide _ _ _, _ | .evaluate _, _ => []

namespace HeapStep

def isWritten (heap : List String) : HeapStep → Bool
  | allocate _ => true
  | free name => name ∈ heap

@[simp] theorem live_append (heap : List String) (first rest : List HeapStep) :
    live heap (first ++ rest) = live (live heap first) rest := List.foldl_append

end HeapStep

namespace HeapSite

def live (heap : List String) (sites : List HeapSite) : List String :=
  HeapStep.live heap (sites.map step)

def written (heap : List String) : List HeapSite → List HeapSite
  | [] => []
  | site :: sites =>
    if site.step.isWritten heap then site :: written (site.step.apply heap) sites
    else written (site.step.apply heap) sites

@[simp] theorem live_append (heap : List String) (first rest : List HeapSite) :
    live heap (first ++ rest) = live (live heap first) rest := by
  simp [live]

theorem written_append (heap : List String) (first rest : List HeapSite) :
    written heap (first ++ rest) = written heap first ++ written (live heap first) rest := by
  induction first generalizing heap with
  | nil => rfl
  | cons site first inductionHypothesis =>
    rw [List.cons_append, written, written, inductionHypothesis]
    split <;> rfl

end HeapSite

/-- The lines show the steps one after the other, and no step besides them. -/
inductive ShowSteps : List String → List HeapStep → Prop
  | nil : ShowSteps [] []
  | step {text texts step steps} : HeapStep.Shown step text → ShowSteps texts steps →
      ShowSteps (text :: texts) (step :: steps)
  | other {text texts steps} : NoHeapLine text → ShowSteps texts steps →
      ShowSteps (text :: texts) steps

namespace ShowSteps

theorem append {texts more : List String} {steps later : List HeapStep}
    (shows : ShowSteps texts steps) (others : ShowSteps more later) :
    ShowSteps (texts ++ more) (steps ++ later) := by
  induction shows with
  | nil => exact others
  | step isShown _ inductionHypothesis => exact .step isShown inductionHypothesis
  | other isOther _ inductionHypothesis => exact .other isOther inductionHypothesis

theorem others {texts : List String} (areOther : ∀ text ∈ texts, NoHeapLine text) :
    ShowSteps texts [] := by
  induction texts with
  | nil => exact .nil
  | cons text texts inductionHypothesis =>
    obtain ⟨isOther, areOther⟩ := List.forall_mem_cons.mp areOther
    exact .other isOther (inductionHypothesis areOther)

end ShowSteps

namespace Writer

def AddsSteps (before : Writer) (steps : List HeapStep) (after : Writer) : Prop :=
  ∃ added, after.lines.toList = before.lines.toList ++ added ∧ ShowSteps (added.map Line.text) steps

def Shows (before : Writer) (sites : List HeapSite) (after : Writer) : Prop :=
  before.AddsSteps ((HeapSite.written before.heap sites).map HeapSite.step) after

theorem Shows.same {before after : Writer} (lines_eq : after.lines = before.lines) :
    before.Shows [] after :=
  ⟨[], by rw [lines_eq, List.append_nil], .nil⟩

/-- The lines show the places, and the writer knows what they leave live. -/
structure Follows (before : Writer) (sites : List HeapSite) (after : Writer) : Prop where
  shows : before.Shows sites after
  heap_eq : after.heap = HeapSite.live before.heap sites

namespace Follows

variable {before middle after : Writer} {sites more : List HeapSite}

theorem shows_append (first : before.Follows sites middle) (rest : middle.Shows more after) :
    before.Shows (sites ++ more) after := by
  obtain ⟨⟨added, lines_eq, shown⟩, heap_eq⟩ := first
  obtain ⟨others, more_eq, otherShown⟩ := rest
  refine ⟨added ++ others, by rw [more_eq, lines_eq, List.append_assoc], ?_⟩
  rw [HeapSite.written_append, ← heap_eq, List.map_append, List.map_append]
  exact shown.append otherShown

theorem trans (first : before.Follows sites middle) (rest : middle.Follows more after) :
    before.Follows (sites ++ more) after where
  shows := first.shows_append rest.shows
  heap_eq := by rw [rest.heap_eq, first.heap_eq, HeapSite.live_append]

theorem same (lines_eq : after.lines = before.lines) (heap_eq : after.heap = before.heap) :
    before.Follows [] after where
  shows := .same lines_eq
  heap_eq := heap_eq

theorem lineAll {texts : List String} (areOther : ∀ text ∈ texts, NoHeapLine text) :
    before.Follows [] (before.lineAll texts) where
  shows := by
    refine ⟨_, lineAll_lines before texts, ?_⟩
    rw [List.map_map]
    exact .others (by simpa using areOther)
  heap_eq := by
    induction texts generalizing before with
    | nil => rfl
    | cons text texts inductionHypothesis =>
      exact @inductionHypothesis (before.line text) (List.forall_mem_cons.mp areOther).2

theorem line {text : String} (isOther : NoHeapLine text) : before.Follows [] (before.line text) :=
  lineAll (List.forall_mem_singleton.mpr isOther)

theorem allocated (type : ScalarType) (name size : String) (scope : Scope Storage) :
    before.Follows [⟨.allocate name, scope⟩]
      ((before.allocate name).line (newLine type name size)) where
  shows := ⟨[⟨before.level, newLine type name size⟩], Array.toList_push,
    .step (.allocate type name size) .nil⟩
  heap_eq := rfl

theorem released (name : String) (scope : Scope Storage) :
    before.Follows [⟨.free name, scope⟩]
      (before.release name ("delete[] " ++ identifier name ++ ";")) := by
  rw [release]
  split
  · next isLive =>
    refine ⟨⟨[⟨before.level, "delete[] " ++ identifier name ++ ";"⟩], Array.toList_push, ?_⟩, rfl⟩
    have isWritten : HeapStep.isWritten before.heap (.free name) = true := decide_eq_true isLive
    rw [HeapSite.written, if_pos isWritten]
    exact .step (.free name) .nil
  · next notLive =>
    refine ⟨⟨[], (List.append_nil _).symm, ?_⟩, (List.erase_of_not_mem notLive).symm⟩
    have notWritten : ¬ HeapStep.isWritten before.heap (.free name) = true :=
      fun isWritten => notLive (of_decide_eq_true isWritten)
    rw [HeapSite.written, if_neg notWritten]
    exact .nil

end Follows

end Writer

namespace Emission

open Writer

variable {σ α : Type} {writer : σ → Writer} {sites : List HeapSite}

/-- A run that comes by the places shows them in its lines. If it stops early, it has written the
first of them. -/
def heapLogic (writer : σ → Writer) : RunLogic HeapSite σ σ where
  starts before other := before = other
  passes sites before _ after other := after = other ∧ (writer before).Follows sites (writer after)
  stops sites _ before _ after _ :=
    ∃ done, done <+: sites ∧ (writer before).Shows done (writer after)
  isOwn _ := False
  starts_of_passes passed := passed.1
  passes_nil same := ⟨same, .same rfl rfl⟩
  passes_append first second := ⟨second.1, first.2.trans second.2⟩
  stops_append := by
    rintro sites _ _ _ _ _ ⟨done, isFirst, shows⟩ more
    exact ⟨done, isFirst.trans (List.prefix_append sites more), shows⟩
  stops_of_passes := by
    rintro sites _ _ _ _ _ _ _ _ ⟨-, follows⟩ ⟨done, isFirst, shows⟩
    exact ⟨sites ++ done, (List.prefix_append_right_inj sites).mpr isFirst,
      follows.shows_append shows⟩
  refuses _ _ _ := ⟨[], List.nil_prefix, .same rfl⟩

abbrev Traced (writer : σ → Writer) (run : Emission σ α) (sites : List HeapSite) : Prop :=
  (heapLogic writer).Holds sites run run

theorem Traced.halts : (heapLogic writer).Halts sites :=
  fun _ _ => ⟨[], List.nil_prefix, .same rfl⟩

theorem Traced.of_change {f : σ → σ} (follows : ∀ s, (writer s).Follows sites (writer (f s))) :
    Traced writer (modify f) sites :=
  .change fun before _ same => ⟨congrArg f same, follows before⟩

end Emission

theorem StencilType.layout_ofBounds {layout : StencilLayout} {element : ScalarType}
    {bounds : List Bound} {depth : Nat} {type : StencilType}
    (isType : ofBounds layout element bounds depth = .ok type) : type.layout = layout := by
  unfold ofBounds at isType
  split at isType
  · cases isType
  · cases extents : extentsOf [] bounds with
    | error stop =>
      rw [extents] at isType
      cases isType
    | ok extents =>
      rw [extents] at isType
      cases isType
      rfl

namespace Emitter

open Emission Emission.Traced RunLogic.Holds Writer

variable {σ : Type} {e : Emitter σ} {writer : σ → Writer}

/-- An emitter that writes nothing about the heap where it goes a way of its own, and that puts only
transfers behind other statements. -/
structure KeepsHeap (e : Emitter σ) (writer : σ → Writer) : Prop extends HasWriter e writer where
  region : ∀ {name body write}, e.region? name body = some write →
    ∀ env, Traced writer (write env) []
  intrinsic : ∀ {value write}, e.intrinsic? value = some write → Traced writer write []
  isDrain : ∀ {s}, e.isDrain s = .ok true → ∃ value, s = .evaluate value

namespace KeepsHeap

variable (keeps : e.KeepsHeap writer)

include keeps

theorem traced_modify {change : Writer → Writer} {sites : List HeapSite}
    (follows : ∀ w : Writer, w.Follows sites (change w)) :
    Traced writer (modify (e.onWriter change)) sites := by
  refine of_change fun state => ?_
  rw [keeps.writer_onWriter]
  exact follows (writer state)

theorem traced_line {text : String} (isOther : NoHeapLine text) : Traced writer (e.line text) [] :=
  keeps.traced_modify fun _ => .line isOther

theorem traced_indented {opening : String} {body : Emission σ Unit} {sites : List HeapSite}
    (isOther : NoHeapLine opening) (inside : Traced writer body sites) :
    Traced writer (e.indented opening body) sites := by
  have enters : Traced writer (modify (e.onWriter indent)) [] :=
    keeps.traced_modify fun _ => .same rfl rfl
  have leaves : Traced writer (modify (e.onWriter dedent)) [] :=
    keeps.traced_modify fun _ => .same rfl rfl
  exact (keeps.traced_line isOther).before fun _ => enters.before fun _ =>
    inside.behind fun _ => leaves

theorem traced_declare {type : StencilType} (notMemory : type.layout ≠ .memory) (name : String) :
    Traced writer (e.declare type name) [] :=
  keeps.traced_modify fun _ => .lineAll (List.forall_mem_cons.mpr
    ⟨noHeapLine_declaration name notMemory, noHeapLine_pragmas name type⟩)

/-- A heap array is known before its size is printed. If the size is refused, the array is live
without a line. -/
theorem traced_new_bind (type : ScalarType) (name : String) (size : Expr) (scope : Scope Storage)
    {next : Unit → Emission σ Unit} {sites : List HeapSite}
    (rest : ∀ value, Traced writer (next value) sites) :
    Traced writer (do
      modify (e.onWriter (·.allocate name))
      let printed ← ofExcept size.print
      e.line (newLine type name printed)
      next ()) (⟨.allocate name, scope⟩ :: sites) := by
  cases isPrinted : size.print with
  | error stop =>
    intro state other _
    refine .error ⟨[], List.nil_prefix, .same ?_⟩
    rw [keeps.writer_onWriter]
    rfl
  | ok printed =>
    have both : Traced writer (do
        modify (e.onWriter (·.allocate name))
        e.line (newLine type name printed)) [⟨.allocate name, scope⟩] := by
      rintro state _ rfl
      refine .ok ⟨rfl, ?_⟩
      rw [keeps.writer_onWriter, keeps.writer_onWriter]
      exact .allocated type name printed scope
    exact both.bind rest

theorem traced_emit (s : Stmt) (env : Env) (scope : Scope Storage) :
    Traced writer (e.emit s env) (e.heapSites s scope) := by
  have closes : Traced writer (e.line "\x7d") [] :=
    keeps.traced_line (noHeapLine_of_endsOther rfl)
  induction s generalizing env scope with
  | letIn name value body bodyTraced =>
    refine ofStop_bind halts fun env _ => ofExcept_bind fun printed _ => ?_
    exact (keeps.traced_line (noHeapLine_letLine name _ _)).before fun _ => bodyTraced env scope
  | assert condition message =>
    refine ofExcept_bind fun printed _ => keeps.traced_line ?_
    simp only [String.append_assoc]
    exact noHeapLine_of_start rfl _
  | produce name body bodyTraced =>
    rw [Emitter.emit, heapSites]
    split
    · next write isRegion =>
      rw [isRegion]
      exact keeps.region isRegion env
    · next noRegion =>
      rw [noRegion]
      exact (keeps.traced_line (noHeapLine_of_start rfl name)).before fun _ => bodyTraced env scope
  | consume name body bodyTraced =>
    exact (keeps.traced_line (noHeapLine_of_start rfl name)).before fun _ => bodyTraced env scope
  | loop name min extent body bodyTraced =>
    refine ofExcept_bind fun low _ => ofExcept_bind fun size _ => ?_
    exact (keeps.traced_indented (noHeapLine_loopLine name low size) (bodyTraced env scope)).behind
      fun _ => closes
  | store name value index =>
    refine ofExcept_bind fun place _ => ofExcept_bind fun printed _ => ?_
    exact keeps.traced_line (noHeapLine_store name place printed)
  | provide name value args =>
    refine ofExcept_bind fun place _ => ofExcept_bind fun printed _ => keeps.traced_line ?_
    have isCall := noHeapLine_call (isIdentifier_identifier name).legal
      (place ++ ") = " ++ printed ++ ";")
    simpa only [String.append_assoc] using isCall
  | allocate name type extents body bodyTraced =>
    rw [Emitter.emit, heapSites]
    refine ofStop_bind halts fun env _ => ofFold_bind halts fun size isSize => ?_
    cases isConstant : size.int? with
    | some constant =>
      have isStack : Storage.ofExtents extents = .stack := by
        simp [Storage.ofExtents, isSize, isConstant]
      rw [isStack]
      exact (keeps.traced_line (noHeapLine_arrayLine name type constant)).before fun _ =>
        bodyTraced env _
    | none =>
      have isHeap : Storage.ofExtents extents = .heap := by
        simp [Storage.ofExtents, isSize, isConstant]
      rw [isHeap]
      exact keeps.traced_new_bind type name size scope fun _ => bodyTraced env _
  | free name =>
    rw [Emitter.emit, heapSites]
    split
    · exact .pure ()
    · exact keeps.traced_modify fun _ => .released name scope
  | realize name type bounds body bodyTraced =>
    have declares {layout : StencilLayout} (notMemory : layout ≠ .memory) (depth : Nat) :
        ∀ stencil, StencilType.ofBounds layout type bounds depth = .ok stencil →
          Traced writer (e.declare stencil name) [] := by
      intro stencil isType
      refine keeps.traced_declare ?_ name
      rwa [StencilType.layout_ofBounds isType]
    rw [Emitter.emit, heapSites]
    split
    · exact ofStop_bind halts fun stencil isType =>
        (declares (by decide) _ stencil isType).before fun _ => bodyTraced _ scope
    split
    · exact ofStop_bind halts fun stencil isType =>
        (declares (by decide) _ stencil isType).before fun _ => bodyTraced _ scope
    · refine ofFold_bind halts fun size _ => ?_
      split
      · exact refused _
      · exact (keeps.traced_line (noHeapLine_arrayLine name type _)).before fun _ =>
          bodyTraced env scope
  | block first rest firstTraced restTraced =>
    rw [Emitter.emit, heapSites]
    refine ofExcept_bind fun isDrain isAnswer => ?_
    split
    · next drains =>
      -- A transfer has no place of its own, so the places are met in program order.
      obtain ⟨value, rfl⟩ := keeps.isDrain (drains ▸ isAnswer)
      refine ofExcept_bind fun isPair _ => ?_
      split
      · exact refused _
      · exact (restTraced env scope).behind fun _ => firstTraced env scope
    · exact (firstTraced env scope).bind fun _ => restTraced env scope
  | ifThen condition thenCase thenTraced =>
    refine ofExcept_bind fun printed _ => ?_
    exact (keeps.traced_indented (noHeapLine_condition printed) (thenTraced env scope)).behind
      fun _ => closes
  | ifThenElse condition thenCase elseCase thenTraced elseTraced =>
    refine ofExcept_bind fun printed _ => ?_
    refine (keeps.traced_indented (noHeapLine_condition printed) (thenTraced env scope)).bind
      fun _ => ?_
    exact (keeps.traced_indented (noHeapLine_of_endsOther rfl) (elseTraced env scope)).behind
      fun _ => closes
  | evaluate value =>
    rw [Emitter.emit]
    split
    · next write isIntrinsic => exact keeps.intrinsic isIntrinsic
    split
    · exact .pure ()
    · exact ofExcept_bind fun printed isPrinted =>
        keeps.traced_line (value.noHeapLine_print printed isPrinted)

end KeepsHeap

theorem keepsHeap_plain (naming : Naming) (streamDepth : Nat) :
    (plain naming streamDepth).KeepsHeap id where
  toHasWriter := (performsBy_plain naming streamDepth).toHasWriter
  region isRegion := by cases isRegion
  intrinsic isIntrinsic := by cases isIntrinsic
  isDrain drains := by cases drains

end Emitter

namespace Host

open Emission Emission.Traced RunLogic.Holds

variable {config : Config}

theorem traced_call {word : String} (isWord : ∀ c ∈ word.toList, isIdentifierChar c = true)
    (more : String) : Traced writer (modify (onWriter (·.line (word ++ "(" ++ more)))) [] :=
  of_change fun _ => .line (noHeapLine_call isWord more)

theorem traced_freshKernel_bind {target : String} {next : String → Emission Host Unit}
    {sites : List HeapSite}
    (rest : ∀ kernel : String, IsIdentifier kernel.toList → Traced writer (next kernel) sites) :
    Traced writer (freshKernel config target >>= next) sites := by
  rintro host _ rfl
  let named := nextKernel config target host
  have isIdentifier : IsIdentifier named.1.toList :=
    FreshNames.isIdentifier_unique _ _ (isIdentifier_identifier _)
  have ends := rest named.1 isIdentifier { host with names := named.2 } _ rfl
  exact ends.after (s := host) (t := host) ⟨rfl, .same rfl rfl⟩

theorem traced_onKernels (steps : Emission KernelFiles Unit) :
    Traced writer (onKernels steps) [] := by
  rintro host _ rfl
  cases written : steps host.kernels with
  | ok _ kernels =>
    rw [onKernels_of_ok written]
    exact .ok ⟨rfl, .same rfl rfl⟩
  | error stop kernels =>
    rw [onKernels_of_error written]
    exact .error ⟨[], List.nil_prefix, .same rfl⟩

theorem traced_lowerRegion (target : String) (body : Stmt) (env : Env) :
    Traced writer (lowerRegion config target body env) [] := by
  refine ofExcept_bind fun args _ => traced_freshKernel_bind fun kernel isIdentifier => ?_
  refine (traced_onKernels _).before fun _ => ?_
  have called := traced_call isIdentifier.legal
    (commaSeparated ((args.map (Argument.annotate env.sizes)).map (identifier ·.name)) ++ ");")
  rw [← String.append_assoc] at called
  exact called.before fun _ => of_change fun _ => .same rfl rfl

theorem traced_transfer (args : List Expr) : Traced writer (transfer args) [] := by
  unfold transfer
  split
  · exact refused _
  refine ofExcept_bind fun direction _ => ofExcept_bind fun printed _ => ?_
  have isWord : ∀ c ∈ direction.function.toList, isIdentifierChar c = true := by
    cases direction <;> exact List.all_eq_true.mp rfl
  simpa only [String.append_assoc] using traced_call isWord (printed ++ ");")

theorem traced_copyToStencil (args : List Expr) : Traced writer (copyToStencil args) [] := by
  unfold copyToStencil
  split
  · exact refused _
  refine ofExcept_bind fun printed _ => ?_
  have isWord : ∀ c ∈ bufferToStencil.toList, isIdentifierChar c = true :=
    List.all_eq_true.mp rfl
  simpa only [String.append_assoc] using traced_call isWord (printed ++ ");")

theorem keepsHeap_emitter (config : Config) : (emitter config).KeepsHeap Host.writer where
  toHasWriter := hasWriter_emitter config
  region isRegion env := by
    obtain ⟨target, _, rfl⟩ := Option.map_eq_some_iff.mp isRegion
    exact traced_lowerRegion target _ env
  intrinsic {value write} isIntrinsic := by
    change intrinsic? value = some write at isIntrinsic
    unfold intrinsic? at isIntrinsic
    split at isIntrinsic
    · split at isIntrinsic
      · cases isIntrinsic
        exact traced_transfer _
      split at isIntrinsic
      · cases isIntrinsic
        exact traced_copyToStencil _
      · cases isIntrinsic
    · cases isIntrinsic
  isDrain {s} drains := by
    change isDrain s = .ok true at drains
    unfold isDrain at drains
    split at drains
    · exact ⟨_, rfl⟩
    · cases drains

end Host

end StreamSynth
