import StreamSynth.Proofs.ArgumentOutcome
import StreamSynth.Proofs.RegionCall

/-!
# Element types of buffers

The host code declares the array of an allocation with the element type of the allocation. A kernel
that takes the array as a buffer has no part in this: its parameter has the type of the first access
in the body of the region, which for a store is the type of the stored value. The two sides agree
exactly when the first access happens to have the type of the allocation.
-/

namespace StreamSynth

/-- How a construct declares its name in the host code. -/
inductive Declaration where
  | constant
  | counter
  | array (type : ScalarType)
  | realized
  deriving DecidableEq

def Construct.declaration : Construct → String × Declaration
  | define name _ => (name, .constant)
  | loop name => (name, .counter)
  | allocate name type _ => (name, .array type)
  | realize name _ _ => (name, .realized)

def RegionSite.scope (site : RegionSite) : Scope Declaration :=
  ⟨site.around.map Construct.declaration⟩

def Stmt.FirstAccess (body : Stmt) (name : String) (type : ScalarType) : Prop :=
  ∃ before access after, body.freeOccurrences = before ++ access :: after ∧
    (∀ earlier ∈ before, earlier.accesses name = false) ∧
    access.accesses name = true ∧ access.type = type

theorem Stmt.firstAccess_iff {body : Stmt} {name : String} {type : ScalarType} :
    body.FirstAccess name type ↔
      (body.freeOccurrences.find? (Occurrence.accesses name)).map Occurrence.type = some type := by
  simp only [Option.map_eq_some_iff, List.find?_eq_some_iff_append, Stmt.FirstAccess]
  constructor
  · rintro ⟨before, access, after, areFree, noEarlier, accesses, isType⟩
    exact ⟨access, ⟨accesses, before, after, areFree, by simpa using noEarlier⟩, isType⟩
  · rintro ⟨access, ⟨accesses, before, after, areFree, noEarlier⟩, isType⟩
    exact ⟨before, access, after, areFree, by simpa using noEarlier, accesses, isType⟩

section Arguments

variable {stencils : Scope StencilType} {naming : Naming} {region : String} {args : List Argument}
  {arg : Argument} {size : Option Expr} {read write : Bool}

theorem Closure.type_eq_iff_firstAccess {body : Stmt}
    (succeeded : (capture body).arguments stencils naming region = .ok args)
    (isArgument : arg ∈ args) (isMemory : arg.role = .memory size read write)
    (type : ScalarType) : arg.type = type ↔ body.FirstAccess arg.name type := by
  obtain ⟨vars, rfl, _, ofScope⟩ := Closure.arguments_ok succeeded
  rcases List.mem_append.mp isArgument with isBuffer | isVariable
  · obtain ⟨buffer, isUse, rfl⟩ := List.mem_map.mp isBuffer
    have typed := (noted_capture body).buffers_firstSeen.typed buffer.entry
      (List.mem_map_of_mem isUse)
    rw [Stmt.firstAccess_iff]
    change _ ↔ (body.freeOccurrences.find? (Occurrence.accesses buffer.entry.1)).map _ = _
    rw [typed]
    exact Option.some_inj.symm
  · rcases ofScope arg isVariable with isScalar | ⟨_, _, isStream⟩
    · rw [isMemory] at isScalar
      cases isScalar
    · rw [isMemory] at isStream
      cases isStream

@[simp] theorem Argument.annotate_type (sizes : BufferSizes) (arg : Argument) :
    (arg.annotate sizes).type = arg.type := by
  unfold annotate
  split <;> rfl

theorem Argument.role_of_annotate {sizes : BufferSizes}
    (isMemory : (arg.annotate sizes).role = .memory size read write) :
    ∃ size, arg.role = .memory size read write := by
  unfold annotate at isMemory
  split at isMemory
  · next known =>
    cases isMemory
    exact ⟨_, known⟩
  · exact ⟨size, isMemory⟩

theorem Argument.parameter_of_memory (isMemory : arg.role = .memory size read write) :
    arg.parameter = arg.type.generated ++ " *" ++ identifier arg.name ∨
      ∃ n : Int64, arg.parameter =
        arg.type.generated ++ " " ++ identifier arg.name ++ "[" ++ toString n.toInt ++ "]" := by
  simp only [parameter, isMemory]
  cases size.bind Expr.int? with
  | none => exact .inl rfl
  | some n => exact .inr ⟨n, rfl⟩

end Arguments

inductive DeclaresArray (name : String) (type : ScalarType) : String → Prop
  | constant (size : Int64) : DeclaresArray name type (arrayLine type name size)
  | heap (size : String) : DeclaresArray name type (newLine type name size)

theorem RegionSite.exists_declaresArray {config : Config} {site : RegionSite} {lines : List Line}
    (written : WrittenAround config site.around lines) {name : String} {type : ScalarType}
    (allocated : site.scope.Binds name (.array type)) :
    ∃ line ∈ lines, DeclaresArray name type line.text := by
  obtain ⟨inner, outer, areBindings, _⟩ := allocated
  have isBinding : (name, .array type) ∈ site.around.map Construct.declaration := by
    change _ ∈ site.scope.bindings
    simp [areBindings]
  obtain ⟨c, isAround, isArray⟩ := List.mem_map.mp isBinding
  obtain ⟨line, isLine, isWritten⟩ := written c isAround
  refine ⟨line, isLine, ?_⟩
  cases c with
  | allocate other otherType extents =>
    cases isArray
    generalize line.text = text at isWritten ⊢
    cases isWritten with
    | array _ _ _ size => exact .constant size
    | heap _ _ _ size => exact .heap size
  | define _ _ => cases isArray
  | loop _ => cases isArray
  | realize _ _ _ => cases isArray

/-- A buffer argument beside the array that the allocation around its region becomes. The array
has the type of the allocation, the parameter that of the first access. -/
structure RegionSite.PassesBuffer (lines : List Line) (site : RegionSite)
    (record : RegionRecord) (arg : Argument) (type : ScalarType) : Prop where
  declared : ∃ (before after : List Line) (callLevel : Nat),
    lines = before ++ ⟨callLevel, record.call⟩ :: after ∧
      ∃ line ∈ before, DeclaresArray arg.name type line.text
  parameter : arg.parameter = arg.type.generated ++ " *" ++ identifier arg.name ∨
    ∃ n : Int64, arg.parameter =
      arg.type.generated ++ " " ++ identifier arg.name ++ "[" ++ toString n.toInt ++ "]"
  type_iff : arg.type = type ↔ site.region.body.FirstAccess arg.name type

theorem RegionSite.CalledIn.passesBuffer {config : Config} {lines : List Line}
    {site : RegionSite} {record : RegionRecord} (calledIn : site.CalledIn config lines record)
    {arg : Argument} (isArgument : arg ∈ record.args) {size : Option Expr} {read write : Bool}
    (isMemory : arg.role = .memory size read write) {type : ScalarType}
    (allocated : site.scope.Binds arg.name (.array type)) :
    site.PassesBuffer lines record arg type := by
  obtain ⟨-, ⟨env, args, _, captured, areArgs⟩, before, level, after, areLines, written⟩ := calledIn
  refine ⟨⟨before, after, level, areLines, ?_⟩, Argument.parameter_of_memory isMemory, ?_⟩
  · exact RegionSite.exists_declaresArray written allocated
  · rw [areArgs] at isArgument
    obtain ⟨bare, isBare, rfl⟩ := List.mem_map.mp isArgument
    obtain ⟨bareSize, isMemoryToo⟩ := Argument.role_of_annotate isMemory
    rw [Argument.annotate_type, Argument.annotate_name]
    exact Closure.type_eq_iff_firstAccess captured isBare isMemoryToo type

/-- Whenever files are generated and the innermost declaration of a buffer around a region is an
allocation, the host code declares the array with the type of the allocation in front of the call,
and the kernel has the same type for it exactly when the first free access in the region has. -/
theorem buffer_types_of_generate {config : Config} {p : Pipeline} {g : Generated}
    (succeeded : generate config p = .ok g) :
    ∃ lines, g.driver = renderAll lines ∧
      List.Forall₂ (fun site record => ∀ arg ∈ record.args, ∀ size read write,
          arg.role = .memory size read write → ∀ type, site.scope.Binds arg.name (.array type) →
            site.PassesBuffer lines record arg type)
        (p.body.regionSites config.naming.regionStart []) g.regions := by
  obtain ⟨lines, isDriver, called⟩ := calledIn_of_generate succeeded
  refine ⟨lines, isDriver, called.imp ?_⟩
  intro site record calledIn arg isArgument size read write isMemory type allocated
  exact calledIn.passesBuffer isArgument isMemory allocated

def storeByte (value : Expr) : Pipeline :=
  ⟨"store", [], .allocate "tmp" ⟨.uint, 8⟩ [.ofInt 4]
    (.produce "_hls_target.hw" (.store "tmp" value (.ofInt 0)))⟩

def storeByteSite (value : Expr) : RegionSite :=
  ⟨[.allocate "tmp" ⟨.uint, 8⟩ [.ofInt 4]], "_hls_target.hw", .store "tmp" value (.ofInt 0)⟩

theorem storeByteSite_binds (value : Expr) :
    (storeByteSite value).scope.Binds "tmp" (.array ⟨.uint, 8⟩) :=
  ⟨[], _, rfl, by simp⟩

theorem buffer_types_of_generate_storeByte :
    ∃ g record lines arg, generate .standard (storeByte (.cast ⟨.uint, 8⟩ (.ofInt 1))) = .ok g ∧
      g.regions = [record] ∧ record.args = [arg] ∧ g.driver = renderAll lines ∧
      (storeByteSite (.cast ⟨.uint, 8⟩ (.ofInt 1))).PassesBuffer lines record arg ⟨.uint, 8⟩ ∧
      arg.type = ⟨.uint, 8⟩ := by
  obtain ⟨g, record, arg, succeeded, areRecords, areArgs, isBuffer⟩ :
      ∃ g record arg, generate .standard (storeByte (.cast ⟨.uint, 8⟩ (.ofInt 1))) = .ok g ∧
        g.regions = [record] ∧ record.args = [arg] ∧
        arg = ⟨"tmp", ⟨.uint, 8⟩, .memory (some (.ofInt 4)) false true⟩ :=
    ⟨_, _, _, rfl, rfl, rfl, rfl⟩
  obtain ⟨lines, isDriver, passed⟩ := buffer_types_of_generate succeeded
  have oneSite : (storeByte (.cast ⟨.uint, 8⟩ (.ofInt 1))).body.regionSites
      Config.standard.naming.regionStart [] =
        [storeByteSite (.cast ⟨.uint, 8⟩ (.ofInt 1))] := rfl
  rw [oneSite, areRecords, List.forall₂_cons, areArgs, List.forall_mem_singleton, isBuffer]
    at passed
  have passes := passed.1 _ _ _ rfl _ (storeByteSite_binds _)
  rw [isBuffer] at areArgs
  exact ⟨g, record, lines, _, succeeded, areRecords, areArgs, isDriver, passes, rfl⟩

/-- The host code declares an array of bytes where the kernel takes one of wider elements. -/
theorem storeByte_types_differ :
    (storeByte (.ofInt 1)).body.regionSites Config.standard.naming.regionStart [] =
        [storeByteSite (.ofInt 1)] ∧
      (storeByteSite (.ofInt 1)).scope.Binds "tmp" (.array ⟨.uint, 8⟩) ∧
      ∃ host, Host.emitPipeline .standard (storeByte (.ofInt 1)) (.start .standard) =
          .ok () host ∧
        generate .standard (storeByte (.ofInt 1)) = .ok (host.generated .standard) ∧
        (host.writer.lines.toList.drop 8).map Line.text =
          ["uint8_t tmp[4];", "hls_target_hw(tmp);", "return 0;", "\x7d"] ∧
        host.regions.toList.map RegionRecord.args =
          [[⟨"tmp", .default, .memory (some (.ofInt 4)) false true⟩]] ∧
        host.regions.toList.map RegionRecord.signature =
          ["void hls_target_hw(int32_t tmp[4])"] :=
  ⟨rfl, storeByteSite_binds _, _, rfl, rfl, rfl, rfl, rfl⟩

end StreamSynth
