import StreamSynth.Proofs.KernelArguments
import StreamSynth.Proofs.RegionCall

/-!
# Lexical scope of annotations

The size of a buffer argument and the type of a stream argument are what the innermost construct
around the region tells about the name, so that nothing that does not enclose a region has an
influence on its arguments.
-/

namespace StreamSynth

/-- The record is that of the region, and its arguments say what the constructs around the region
tell about their names. -/
structure RegionSite.Annotated (config : Config) (site : RegionSite) (record : RegionRecord) :
    Prop where
  name_eq : site.region.name = config.naming.regionStart ++ record.target
  names_eq : record.args.map Argument.name =
    (Closure.capture site.region.body).buffers.map BufferUse.name ++
      (Closure.capture site.region.body).vars.map Prod.fst
  memory : ∀ arg ∈ record.args, ∀ size read write, arg.role = .memory size read write →
    ∀ told, SizedBy config.naming site.around arg.name told ↔ told = size
  stream : ∀ arg ∈ record.args, ∀ type, arg.role = .stream type →
    ∃ stencil, type = some stencil ∧
      ∀ told, RealizedBy config site.around arg.name told ↔ told = stencil

theorem RegionSite.CalledIn.annotated {config : Config} {lines : List Line} {site : RegionSite}
    {record : RegionRecord} (calledIn : site.CalledIn config lines record) :
    site.Annotated config record := by
  obtain ⟨name_eq, ⟨env, args, ofConstructs, captured, areArgs⟩, _⟩ := calledIn
  have roles := Closure.argument_role captured env.sizes
  refine ⟨name_eq, ?_, ?_, ?_⟩
  · rw [areArgs, ← Closure.argument_names captured]
    simp
  · rw [areArgs]
    intro arg membership size read write isMemory
    rcases roles arg membership with ⟨_, _, isKnown⟩ | isScalar | ⟨_, _, isStream⟩
    · rw [isMemory] at isKnown
      cases isKnown
      have sized := ofConstructs.sizes arg.name
      exact fun told => ⟨fun sizedToo => sizedToo.unique sized, fun same => same ▸ sized⟩
    · rw [isMemory] at isScalar
      cases isScalar
    · rw [isMemory] at isStream
      cases isStream
  · rw [areArgs]
    intro arg membership type isStream
    rcases roles arg membership with ⟨_, _, isMemory⟩ | isScalar | ⟨stencil, known, isKnown⟩
    · rw [isStream] at isMemory
      cases isMemory
    · rw [isStream] at isScalar
      cases isScalar
    · rw [isStream] at isKnown
      cases isKnown
      have realized := ofConstructs.stencils arg.name stencil known
      exact ⟨stencil, rfl, fun told =>
        ⟨fun realizedToo => realizedToo.unique realized, fun same => same ▸ realized⟩⟩

/-- Whenever files are generated, the records belong to the outermost regions of the pipeline in
program order, and the arguments of each follow the lexical scope of its region. -/
theorem annotations_follow_scope {config : Config} {p : Pipeline} {g : Generated}
    (succeeded : generate config p = .ok g) :
    (p.body.regionSites config.naming.regionStart []).map RegionSite.region =
      p.body.outermostRegions config.naming.regionStart ∧
    List.Forall₂ (RegionSite.Annotated config) (p.body.regionSites config.naming.regionStart [])
      g.regions := by
  obtain ⟨_, -, called⟩ := calledIn_of_generate succeeded
  exact ⟨Stmt.regionSites_region _ _ _, called.imp fun _ _ calledIn => calledIn.annotated⟩

/-- A region inside a descriptor, an allocation and a realization, behind an allocation that does
not enclose it. -/
def scopedBlur : Pipeline :=
  let zero : Expr := .ofInt 0
  let descriptor : Expr := .call "buffer_init" .handle
    [.var "in.buffer" .handle, zero, zero, zero, zero, zero, zero, zero,
      .call "make_struct" .handle [zero, .ofInt 6, zero, zero]]
  let blur : Stmt := .produce "_hls_target.blur"
    (.block (.store "tmp" (.load "in" .default zero) zero)
      (.evaluate (.var "blur.stencil" .default)))
  ⟨"blur", [⟨.buffer, "in", .default⟩],
    .block (.allocate "in" .default [.ofInt 2] .noOp)
      (.letIn "descriptor" descriptor (.allocate "tmp" .default [.ofInt 2, .ofInt 4]
        (.realize "blur.stencil" .default [⟨zero, .ofInt 3⟩] blur)))⟩

theorem annotations_follow_scope_scopedBlur :
    ∃ g, generate .standard scopedBlur = .ok g ∧
      g.regions.map RegionRecord.signature =
        ["void hls_target_blur(int32_t in[6], int32_t tmp[8], Stencil<int32_t, 3> &blur_stencil)"] ∧
      List.Forall₂ (RegionSite.Annotated .standard)
        (scopedBlur.body.regionSites Config.standard.naming.regionStart []) g.regions :=
  ⟨_, rfl, rfl, (annotations_follow_scope rfl).2⟩

end StreamSynth
