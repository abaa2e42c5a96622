import StreamSynth.Proofs.Capture
import StreamSynth.Proofs.LoweredRegion
import StreamSynth.Proofs.Traversal

/-!
# Arguments of kernels

The arguments of a lowered region carry exactly the names of the free variables, loads and stores
of its body. The target of a provided value is not among these uses: a kernel is closed only when
every free target is used in one of the other ways as well.
-/

namespace StreamSynth

section Arguments

variable {stencils : Scope StencilType} {naming : Naming} {region : String}

/-- A captured variable is passed as a scalar, or as a stencil of the type that the scope gives
its name. -/
def Argument.OfScope (stencils : Scope StencilType) (arg : Argument) : Prop :=
  arg.role = .scalar ∨
    ∃ stencil, stencils.get? arg.name = some stencil ∧ arg.role = .stream (some stencil)

theorem Argument.ofVariable_ok {entry : String × ScalarType} {arg : Argument}
    (succeeded : ofVariable stencils naming region entry = .ok arg) :
    arg.name = entry.1 ∧ arg.OfScope stencils := by
  obtain ⟨name, type⟩ := entry
  simp only [ofVariable] at succeeded
  split at succeeded
  · cases succeeded
  · cases succeeded
    exact ⟨rfl, .inl rfl⟩
  · split at succeeded
    · next stencil known =>
      cases succeeded
      exact ⟨rfl, .inr ⟨stencil, known, rfl⟩⟩
    · cases succeeded

theorem Argument.ofVariables_ok {entries : List (String × ScalarType)} {vars : List Argument}
    (succeeded : entries.mapM (ofVariable stencils naming region) = .ok vars) :
    vars.map Argument.name = entries.map Prod.fst ∧ ∀ arg ∈ vars, arg.OfScope stencils := by
  have passed := forall₂_of_mapM_eq_ok succeeded
  clear succeeded
  induction passed with
  | nil => exact ⟨rfl, List.forall_mem_nil _⟩
  | cons isFirst _ inductionHypothesis =>
    obtain ⟨sameName, ofScope⟩ := ofVariable_ok isFirst
    obtain ⟨sameNames, restOfScope⟩ := inductionHypothesis
    exact ⟨by simp [sameName, sameNames], List.forall_mem_cons.mpr ⟨ofScope, restOfScope⟩⟩

theorem Closure.arguments_eq_ok {c : Closure} {args : List Argument}
    (succeeded : c.arguments stencils naming region = .ok args) :
    ∃ vars, c.vars.mapM (Argument.ofVariable stencils naming region) = .ok vars ∧
      args = c.buffers.map Argument.ofBuffer ++ vars ∧
      Argument.checkIdentifiers region [] args = .ok () := by
  unfold Closure.arguments at succeeded
  cases areVars : c.vars.mapM (Argument.ofVariable stencils naming region) with
  | error e =>
    rw [areVars] at succeeded
    cases succeeded
  | ok vars =>
    rw [areVars] at succeeded
    change (do
      Argument.checkIdentifiers region [] (c.buffers.map Argument.ofBuffer ++ vars)
      return c.buffers.map Argument.ofBuffer ++ vars) = Except.ok args at succeeded
    cases checked : Argument.checkIdentifiers region []
        (c.buffers.map Argument.ofBuffer ++ vars) with
    | error e =>
      rw [checked] at succeeded
      cases succeeded
    | ok _ =>
      rw [checked] at succeeded
      cases succeeded
      exact ⟨vars, rfl, rfl, checked⟩

theorem Closure.arguments_ok {c : Closure} {args : List Argument}
    (succeeded : c.arguments stencils naming region = .ok args) :
    ∃ vars, args = c.buffers.map Argument.ofBuffer ++ vars ∧
      vars.map Argument.name = c.vars.map Prod.fst ∧ ∀ arg ∈ vars, arg.OfScope stencils := by
  obtain ⟨vars, areVars, areArgs, _⟩ := Closure.arguments_eq_ok succeeded
  exact ⟨vars, areArgs, Argument.ofVariables_ok areVars⟩

theorem Closure.argument_names {c : Closure} {args : List Argument}
    (succeeded : c.arguments stencils naming region = .ok args) :
    args.map Argument.name = c.buffers.map BufferUse.name ++ c.vars.map Prod.fst := by
  obtain ⟨vars, rfl, names, _⟩ := Closure.arguments_ok succeeded
  rw [List.map_append, names, List.map_map]
  rfl

@[simp] theorem Argument.annotate_name (sizes : BufferSizes) (arg : Argument) :
    (arg.annotate sizes).name = arg.name := by
  unfold annotate
  split <;> rfl

theorem Closure.argument_role {c : Closure} {args : List Argument}
    (succeeded : c.arguments stencils naming region = .ok args) (sizes : BufferSizes) :
    ∀ arg ∈ args.map (Argument.annotate sizes),
      (∃ read write, arg.role = .memory (sizes.get? arg.name) read write) ∨
        arg.OfScope stencils := by
  obtain ⟨vars, rfl, _, ofScope⟩ := Closure.arguments_ok succeeded
  rw [List.map_append, List.forall_mem_append, List.forall_mem_map, List.forall_mem_map,
    List.forall_mem_map]
  constructor
  · exact fun buffer _ => .inl ⟨buffer.read, buffer.write, rfl⟩
  · intro arg membership
    have unchanged : arg.annotate sizes = arg := by
      rcases ofScope arg membership with isScalar | ⟨_, _, isStream⟩
      · simp [Argument.annotate, isScalar]
      · simp [Argument.annotate, isStream]
    rw [unchanged]
    exact .inr (ofScope arg membership)

end Arguments

theorem Occurrence.name_eq_iff {o : Occurrence} {name : String} :
    o.name = name ↔ o.accesses name = true ∨ o.reads name = true := by
  cases o <;> simp [Occurrence.name, accesses, reads]

theorem Closure.Noted.mem_names_iff {seen : List Occurrence} {c : Closure} (noted : Noted seen c)
    (name : String) :
    name ∈ c.buffers.map BufferUse.name ++ c.vars.map Prod.fst ↔
      name ∈ seen.map Occurrence.name := by
  rw [List.mem_append, noted.mem_buffers, noted.mem_vars, List.mem_map]
  simp only [Occurrence.name_eq_iff, and_or_left, exists_or]
  by_cases accessed : ∃ o ∈ seen, o.accesses name = true <;> simp [accessed]

theorem Closure.noted_capture (body : Stmt) : Noted body.freeOccurrences (capture body) := by
  have noted := Noted.empty.foldl_note (body.occurrences [])
  rw [← Stmt.occurrences_eq_freeOccurrences]
  exact noted

theorem Closure.mem_names_capture_iff (body : Stmt) (name : String) :
    name ∈ (capture body).buffers.map BufferUse.name ++ (capture body).vars.map Prod.fst ↔
      name ∈ body.freeOccurrences.map Occurrence.name :=
  (noted_capture body).mem_names_iff name

/-- The targets of provided values, at places where the statement does not bind them. `bound` are
the names bound outside. -/
def Stmt.freeTargets (bound : List String) : Stmt → List String
  | .provide name _ _ => if name ∈ bound then [] else [name]
  | .letIn name _ body | .loop name _ _ body | .allocate name _ _ body
  | .realize name _ _ body => body.freeTargets (name :: bound)
  | .produce _ body | .consume _ body => body.freeTargets bound
  | .block first rest => first.freeTargets bound ++ rest.freeTargets bound
  | .ifThen _ thenCase => thenCase.freeTargets bound
  | .ifThenElse _ thenCase elseCase =>
    thenCase.freeTargets bound ++ elseCase.freeTargets bound
  | .assert _ _ | .store _ _ _ | .free _ | .evaluate _ => []

def Stmt.freeNames (body : Stmt) : List String :=
  body.freeOccurrences.map Occurrence.name ++ body.freeTargets []

namespace Host

variable {config : Config} {target : String} {body : Stmt} {env : Env} {before after : Host}

/-- A lowered region has the names of the free variables, loads and stores of its body as
arguments, and no others. So every free name is one of them exactly when every free target is
used as a variable or a buffer too. -/
theorem lowerRegion_names
    (succeeded : lowerRegion config target body env before = .ok () after) :
    ∃ record, after.regions = before.regions.push record ∧
      (∀ name, name ∈ record.args.map Argument.name ↔
        name ∈ body.freeOccurrences.map Occurrence.name) ∧
      ((∀ name ∈ body.freeNames, name ∈ record.args.map Argument.name) ↔
        ∀ name ∈ body.freeTargets [], name ∈ body.freeOccurrences.map Occurrence.name) := by
  obtain ⟨args, kernels, captured, _, rfl⟩ := lowerRegion_ok succeeded
  have names (name : String) : name ∈ (args.map (Argument.annotate env.sizes)).map Argument.name ↔
      name ∈ body.freeOccurrences.map Occurrence.name := by
    rw [← Closure.mem_names_capture_iff, ← Closure.argument_names captured, List.map_map]
    simp [Function.comp_def]
  refine ⟨_, rfl, names, ?_⟩
  simp only [names, Stmt.freeNames, List.forall_mem_append]
  exact and_iff_right fun _ => id

def blurScope : Env := ⟨.empty, Scope.empty.push "blur.stencil" ⟨.unpacked, .default, [4], 0⟩⟩

def provideBlur : Stmt := .provide "blur.stencil" (.ofInt 1) [.ofInt 0]

def provideAndReadBlur : Stmt := .block provideBlur (.evaluate (.var "blur.stencil" .default))

theorem lowerRegion_names_provideAndReadBlur :
    ∃ after record, lowerRegion .standard "hw" provideAndReadBlur blurScope (start .standard) =
        .ok () after ∧
      after.regions = (start .standard).regions.push record ∧
      ∀ name ∈ provideAndReadBlur.freeNames, name ∈ record.args.map Argument.name := by
  obtain ⟨after, written⟩ : ∃ after, lowerRegion .standard "hw" provideAndReadBlur blurScope
      (start .standard) = .ok () after := ⟨_, rfl⟩
  obtain ⟨record, isRecord, _, closed⟩ := lowerRegion_names written
  exact ⟨after, record, written, isRecord, closed.mpr (by decide)⟩

/-- The kernel of a region that only provides a stencil has no argument for it, although its code
writes to it. -/
theorem provideBlur_not_closed :
    ∃ after record, lowerRegion .standard "hw" provideBlur blurScope (start .standard) =
        .ok () after ∧
      after.regions = (start .standard).regions.push record ∧
      "blur.stencil" ∈ provideBlur.freeNames ∧
      record.args.map Argument.name = [] ∧
      (after.kernels.source.lines.toList.drop 2).map Line.text =
        ["void hls_target_hw() \x7b", "#pragma HLS DATAFLOW",
          "#pragma HLS INTERFACE s_axilite port=return bundle=config", "blur_stencil(0) = 1;",
          "\x7d", ""] :=
  ⟨_, _, rfl, rfl, by decide, rfl, rfl⟩

end Host

end StreamSynth
