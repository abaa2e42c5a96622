import StreamSynth.Proofs.HiddenParameter
import StreamSynth.Proofs.RegionCall

/-!
# Streams as arguments

A realized name is declared as a stream when it has the stream suffix, and passed to a kernel as a
stencil when it has a stencil suffix. Both are free parts of a configuration. A stream around a
region is declared in front of the call of the kernel; it is passed by reference, with the declared
type, exactly when its name has a stencil suffix too, and as a scalar otherwise.
-/

namespace StreamSynth

section Arguments

variable {stencils : Scope StencilType} {naming : Naming} {region : String} {args : List Argument}

theorem Naming.classify_ok {name : String} {nameClass : NameClass}
    (succeeded : naming.classify name region = .ok nameClass) :
    naming.isStencil name = decide (nameClass = .stencil) := by
  unfold Naming.classify at succeeded
  split at succeeded
  · cases succeeded
  · split at succeeded
    · cases succeeded
    · split at succeeded
      · next isStencil =>
        cases succeeded
        exact isStencil
      · next notStencil =>
        cases succeeded
        exact Bool.eq_false_iff.mpr notStencil

/-- The stencil suffixes alone decide how a variable is passed. -/
theorem Argument.ofVariable_cases {name : String} {type : ScalarType} {arg : Argument}
    (succeeded : ofVariable stencils naming region (name, type) = .ok arg) :
    (naming.isStencil name = true ∧ ∃ stencil, stencils.get? name = some stencil ∧
      arg = ⟨name, stencil.element, .stream (some stencil)⟩) ∨
    (naming.isStencil name = false ∧ arg = ⟨name, type, .scalar⟩) := by
  simp only [ofVariable] at succeeded
  split at succeeded
  · cases succeeded
  · next isClass =>
    cases succeeded
    exact .inr ⟨Naming.classify_ok isClass, rfl⟩
  · next isClass =>
    split at succeeded
    · next stencil known =>
      cases succeeded
      exact .inl ⟨Naming.classify_ok isClass, stencil, known, rfl⟩
    · cases succeeded

theorem Argument.exists_ofVariable {entries : List (String × ScalarType)} {vars : List Argument}
    (succeeded : entries.mapM (ofVariable stencils naming region) = .ok vars)
    {entry : String × ScalarType} (isEntry : entry ∈ entries) :
    ∃ arg ∈ vars, ofVariable stencils naming region entry = .ok arg := by
  have passed := forall₂_of_mapM_eq_ok succeeded
  clear succeeded
  induction passed with
  | nil => cases isEntry
  | cons isFirst _ inductionHypothesis =>
    rcases List.mem_cons.mp isEntry with rfl | isLater
    · exact ⟨_, List.mem_cons_self, isFirst⟩
    · obtain ⟨arg, isArgument, isResult⟩ := inductionHypothesis isLater
      exact ⟨arg, List.mem_cons_of_mem _ isArgument, isResult⟩

theorem Closure.filter_arguments {c : Closure}
    (succeeded : c.arguments stencils naming region = .ok args) {arg : Argument}
    (isArgument : arg ∈ args) : args.filter (·.name = arg.name) = [arg] := by
  have differ := Closure.nodup_identifiers succeeded
  clear succeeded
  induction args with
  | nil => cases isArgument
  | cons first rest inductionHypothesis =>
    rw [List.map_cons, List.nodup_cons] at differ
    have otherNames : ∀ other ∈ rest, other.name ≠ first.name := by
      intro other isOther same
      exact differ.1 (List.mem_map.mpr ⟨other, isOther, by rw [same]⟩)
    rcases List.mem_cons.mp isArgument with rfl | isLater
    · rw [List.filter_cons_of_pos (by simp), List.filter_eq_nil_iff.mpr (by simpa using otherNames)]
    · rw [List.filter_cons_of_neg (by simpa using (otherNames arg isLater).symm),
        inductionHypothesis isLater differ.2]

theorem Closure.Noted.var_mem {seen : List Occurrence} {c : Closure} (noted : Noted seen c)
    {name : String} {type : ScalarType} (isEntry : (name, type) ∈ c.vars) :
    .var name type ∈ seen := by
  obtain ⟨o, isFirst, isType⟩ :=
    Option.map_eq_some_iff.mp (noted.vars_firstSeen.typed (name, type) isEntry)
  have reads := List.find?_some isFirst
  cases o with
  | var read readType =>
    simp only [Occurrence.reads, decide_eq_true_eq] at reads
    cases reads
    cases isType
    exact List.mem_of_find?_eq_some isFirst
  | load buffer bufferType => cases reads
  | store buffer bufferType => cases reads

theorem Closure.exists_argument {c : Closure}
    (succeeded : c.arguments stencils naming region = .ok args) {name : String}
    (isVariable : name ∈ c.vars.map Prod.fst) :
    ∃ type arg, (name, type) ∈ c.vars ∧
      Argument.ofVariable stencils naming region (name, type) = .ok arg ∧
      args.filter (·.name = name) = [arg] := by
  obtain ⟨⟨_, type⟩, isEntry, rfl⟩ := List.mem_map.mp isVariable
  obtain ⟨vars, areVars, areArgs, _⟩ := Closure.arguments_eq_ok succeeded
  obtain ⟨arg, isArgument, isResult⟩ := Argument.exists_ofVariable areVars isEntry
  have onlyOne := Closure.filter_arguments succeeded
    (areArgs ▸ List.mem_append_right _ isArgument)
  rw [(Argument.ofVariable_ok isResult).1] at onlyOne
  exact ⟨type, arg, isEntry, isResult, onlyOne⟩

end Arguments

/-- The name of a stream that is realized around the region, and in the region is free as a
variable and nowhere as a buffer. -/
structure RegionSite.TakesStream (config : Config) (site : RegionSite) (name : String) : Prop where
  isStream : config.naming.isStream name = true
  realized : ∃ type bounds, .realize name type bounds ∈ site.around
  read : ∃ type, .var name type ∈ site.region.body.freeOccurrences
  notAccessed : ∀ type, .load name type ∉ site.region.body.freeOccurrences ∧
    .store name type ∉ site.region.body.freeOccurrences

theorem exists_innermost_realize {around : List Construct} {name : String} {type : ScalarType}
    {bounds : List Bound} (realized : .realize name type bounds ∈ around) :
    ∃ type bounds, .realize name type bounds ∈ around ∧
      Innermost (fun c (told : ScalarType × List Bound) => c = .realize name told.1 told.2) around
        (some (type, bounds)) := by
  induction around with
  | nil => cases realized
  | cons first around inductionHypothesis =>
    by_cases isFirst : ∃ type bounds, first = .realize name type bounds
    · obtain ⟨type, bounds, rfl⟩ := isFirst
      exact ⟨type, bounds, List.mem_cons_self, .here rfl⟩
    · rcases List.mem_cons.mp realized with rfl | further
      · exact absurd ⟨type, bounds, rfl⟩ isFirst
      · obtain ⟨innerType, innerBounds, isAround, innermost⟩ := inductionHypothesis further
        refine ⟨innerType, innerBounds, List.mem_cons_of_mem _ isAround, innermost.further ?_⟩
        exact fun told tells => isFirst ⟨told.1, told.2, tells⟩

theorem WrittenAround.exists_stream {config : Config} {around : List Construct} {lines : List Line}
    (written : WrittenAround config around lines) {name : String} {type : ScalarType}
    {bounds : List Bound} (realized : .realize name type bounds ∈ around)
    (isStream : config.naming.isStream name = true) :
    ∃ stencil level,
      StencilType.ofBounds .streaming type bounds config.streamDepth = .ok stencil ∧
      ⟨level, stencil.generated ++ " " ++ identifier name ++ ";"⟩ ∈ lines := by
  obtain ⟨⟨level, text⟩, isLine, isWritten⟩ := written _ realized
  cases isWritten with
  | stream _ isType => exact ⟨_, level, isType, isLine⟩
  | stencil notStream _ =>
    rw [isStream] at notStream
    cases notStream
  | realizedArray _ _ _ notStream =>
    rw [isStream] at notStream
    cases notStream

/-- A stream is declared in front of the call, with the type of its innermost realization, and the
kernel has one argument of its name. This is a reference to the declared stream if the name has a
stencil suffix, and a scalar otherwise. -/
structure RegionSite.PassesStream (config : Config) (lines : List Line) (site : RegionSite)
    (record : RegionRecord) (name : String) (stencil : StencilType) : Prop where
  realizedBy : RealizedBy config site.around name stencil
  declared : ∃ (before after : List Line) (level callLevel : Nat),
    lines = before ++ ⟨callLevel, record.call⟩ :: after ∧
      ⟨level, stencil.generated ++ " " ++ identifier name ++ ";"⟩ ∈ before
  argument : ∃ arg, record.args.filter (·.name = name) = [arg] ∧
    if config.naming.isStencil name then
      arg.role = .stream (some stencil) ∧
        arg.parameter = stencil.generated ++ " &" ++ identifier name
    else arg.role = .scalar ∧ ∃ type, .var name type ∈ site.region.body.freeOccurrences ∧
      arg.parameter = type.generated ++ " " ++ identifier name

theorem RegionSite.CalledIn.passesStream {config : Config} {lines : List Line} {site : RegionSite}
    {record : RegionRecord} (calledIn : site.CalledIn config lines record) {name : String}
    (takes : site.TakesStream config name) :
    ∃ stencil, site.PassesStream config lines record name stencil := by
  obtain ⟨-, ⟨env, args, ofConstructs, captured, areArgs⟩, before, callLevel, after, areLines,
    written⟩ := calledIn
  obtain ⟨_, _, isAround⟩ := takes.realized
  obtain ⟨type, bounds, isInner, innermost⟩ := exists_innermost_realize isAround
  obtain ⟨stencil, level, isType, isDeclared⟩ := written.exists_stream isInner takes.isStream
  have realizedBy : RealizedBy config site.around name stencil :=
    ⟨type, bounds, innermost, by rwa [if_pos takes.isStream]⟩
  refine ⟨stencil, realizedBy, ⟨before, after, level, callLevel, areLines, isDeclared⟩, ?_⟩
  have noted := Closure.noted_capture site.region.body
  have isVariable : name ∈ (Closure.capture site.region.body).vars.map Prod.fst := by
    rw [noted.mem_vars, Occurrence.exists_reads_iff, Occurrence.exists_accesses_iff]
    refine ⟨takes.read, ?_⟩
    rintro (⟨type, loaded⟩ | ⟨type, stored⟩)
    · exact (takes.notAccessed type).1 loaded
    · exact (takes.notAccessed type).2 stored
  obtain ⟨varType, arg, isEntry, isResult, onlyOne⟩ := Closure.exists_argument captured isVariable
  have onlyAnnotated : record.args.filter (·.name = name) = [arg.annotate env.sizes] := by
    simp only [areArgs, List.filter_map, Function.comp_def, Argument.annotate_name, onlyOne,
      List.map_cons, List.map_nil]
  refine ⟨_, onlyAnnotated, ?_⟩
  rcases Argument.ofVariable_cases isResult with ⟨isStencil, known, isKnown, rfl⟩ |
    ⟨notStencil, rfl⟩
  · cases (ofConstructs.stencils name known isKnown).unique realizedBy
    rw [if_pos isStencil]
    exact ⟨rfl, rfl⟩
  · rw [if_neg (Bool.eq_false_iff.mp notStencil)]
    exact ⟨rfl, varType, noted.var_mem isEntry, rfl⟩

/-- Whenever files are generated, the host code declares every stream that a region takes in front
of the call of its kernel, and the stencil suffixes decide whether the kernel takes it as that
stream or as a scalar. -/
theorem stream_arguments_of_generate {config : Config} {p : Pipeline} {g : Generated}
    (succeeded : generate config p = .ok g) :
    ∃ lines, g.driver = renderAll lines ∧
      List.Forall₂ (fun site record => ∀ name, site.TakesStream config name →
          ∃ stencil, site.PassesStream config lines record name stencil)
        (p.body.regionSites config.naming.regionStart []) g.regions := by
  obtain ⟨lines, isDriver, called⟩ := calledIn_of_generate succeeded
  refine ⟨lines, isDriver, called.imp ?_⟩
  intro site record calledIn name takes
  exact calledIn.passesStream takes

def readSite (name : String) : RegionSite :=
  ⟨[.realize name ⟨.uint, 8⟩ [⟨.ofInt 0, .ofInt 4⟩]], "_hls_target.hw",
    .evaluate (.call "read_stream" .default [.var name .handle])⟩

def readStream (name : String) : Pipeline :=
  ⟨"read", [], .realize name ⟨.uint, 8⟩ [⟨.ofInt 0, .ofInt 4⟩]
    (.produce (readSite name).region.name (readSite name).region.body)⟩

theorem readSite_takesStream {config : Config} {name : String}
    (isStream : config.naming.isStream name = true) :
    (readSite name).TakesStream config name where
  isStream := isStream
  realized := ⟨_, _, List.mem_cons_self⟩
  read := ⟨.handle, .head _⟩
  notAccessed type := by
    change .load name type ∉ [Occurrence.var name .handle] ∧
      .store name type ∉ [Occurrence.var name .handle]
    simp

theorem stream_arguments_of_generate_readStream :
    ∃ g record lines stencil, generate .standard (readStream "in.stream") = .ok g ∧
      g.regions = [record] ∧ g.driver = renderAll lines ∧
      (readSite "in.stream").PassesStream .standard lines record "in.stream" stencil := by
  obtain ⟨g, succeeded⟩ : ∃ g, generate .standard (readStream "in.stream") = .ok g := ⟨_, rfl⟩
  obtain ⟨lines, isDriver, passed⟩ := stream_arguments_of_generate succeeded
  have oneSite : (readStream "in.stream").body.regionSites Config.standard.naming.regionStart [] =
      [readSite "in.stream"] := rfl
  rw [oneSite, List.forall₂_cons_left_iff] at passed
  obtain ⟨record, _, first, others, areRecords⟩ := passed
  cases others
  obtain ⟨stencil, passes⟩ := first "in.stream" (readSite_takesStream (by decide))
  exact ⟨g, record, lines, stencil, succeeded, areRecords, isDriver, passes⟩

def fifoConfig : Config := { Config.standard with naming.streamSuffix := ".fifo" }

/-- A valid configuration under which a declared stream is passed to its kernel as a scalar. -/
theorem fifo_passed_as_scalar :
    fifoConfig.fault? = none ∧ (readSite "in.fifo").TakesStream fifoConfig "in.fifo" ∧
      ∃ host, Host.emitPipeline fifoConfig (readStream "in.fifo") (.start fifoConfig) =
          .ok () host ∧
        generate fifoConfig (readStream "in.fifo") = .ok (host.generated fifoConfig) ∧
        (host.writer.lines.toList.drop 8).map Line.text =
          ["hls::stream<AxiPackedStencil<uint8_t, 4> > in_fifo;",
            "#pragma HLS STREAM variable=in_fifo depth=1",
            "#pragma HLS RESOURCE variable=in_fifo core=FIFO_SRL", "hls_target_hw(in_fifo);",
            "return 0;", "\x7d"] ∧
        host.regions.toList.map RegionRecord.args = [[⟨"in.fifo", .handle, .scalar⟩]] ∧
        host.regions.toList.map RegionRecord.signature =
          ["void hls_target_hw(void * in_fifo)"] :=
  ⟨by decide, readSite_takesStream (by decide), _, rfl, rfl, rfl, rfl, rfl⟩

end StreamSynth
