import StreamSynth.Proofs.LexicalScope
import StreamSynth.Proofs.NameAmbiguity
import StreamSynth.Proofs.SizeProduct

/-!
# Names of buffer descriptors

A descriptor is named after its buffer, with a suffix at the end, and the size that it tells is kept
under the name of the buffer. That name is found by a search for the first occurrence of the suffix,
which need not be the one at the end. So the size goes to the right buffer exactly when the suffix
stands nowhere else in the name of the descriptor. If the suffix overlaps itself, this can fail for
a buffer whose own name is free of the suffix; otherwise it fails only for names that hold it.
-/

namespace StreamSynth

section Occurrences

variable {pattern text head : String}

def Occurs (pattern text : String) : Prop := ∃ head tail, text = head ++ pattern ++ tail

/-- The pattern stands in the text right after `head`, and nowhere earlier. -/
structure FirstAfter (pattern text head : String) : Prop where
  stands : ∃ tail, text = head ++ pattern ++ tail
  least : ∀ earlier tail, text = earlier ++ pattern ++ tail → head.length ≤ earlier.length

def OnlyAtEnd (pattern text : String) : Prop :=
  ∀ head tail, text = head ++ pattern ++ tail → tail = ""

/-- A part of the text, neither empty nor all of it, is both its beginning and its end. -/
def OverlapsItself (text : String) : Prop :=
  ∃ common head tail, common ≠ "" ∧ tail ≠ "" ∧ text = common ++ tail ∧ text = head ++ common

theorem FirstAfter.occurs (first : FirstAfter pattern text head) : Occurs pattern text :=
  ⟨head, first.stands⟩

/-- Both occurrences are at the same distance from the start of one text. -/
theorem FirstAfter.unique {other : String} (first : FirstAfter pattern text head)
    (second : FirstAfter pattern text other) : head = other := by
  obtain ⟨tail, stands⟩ := first.stands
  obtain ⟨tail', stands'⟩ := second.stands
  have sameLength : head.toList.length = other.toList.length := by
    rw [String.length_toList, String.length_toList]
    exact Nat.le_antisymm (first.least other tail' stands') (second.least head tail stands)
  have sameText := congrArg String.toList (stands.symm.trans stands')
  simp only [String.toList_append, List.append_assoc] at sameText
  exact String.toList_inj.mp (List.append_inj_left sameText sameLength)

/-- The search stops at the first occurrence, and at the end of the text without one. -/
theorem charsBefore_cases (pattern text : List Char) :
    (∃ tail, text = charsBefore pattern text ++ pattern ++ tail ∧
      ∀ earlier tail, text = earlier ++ pattern ++ tail →
        (charsBefore pattern text).length ≤ earlier.length) ∨
    charsBefore pattern text = text ∧ ∀ head tail, text ≠ head ++ pattern ++ tail := by
  induction text with
  | nil =>
    by_cases isNil : pattern = []
    · exact .inl ⟨[], by simp [charsBefore, isNil], by simp [charsBefore]⟩
    · exact .inr ⟨rfl, by simp [isNil]⟩
  | cons c rest inductionHypothesis =>
    rw [charsBefore]
    split
    · next starts =>
      obtain ⟨tail, isText⟩ := List.isPrefixOf_iff_prefix.mp starts
      exact .inl ⟨tail, isText.symm, by simp⟩
    · next startsNot =>
      -- An occurrence in the whole text is one in the rest, as none is at the start.
      have later {head tail : List Char} (stands : c :: rest = head ++ pattern ++ tail) :
          ∃ head', head = c :: head' ∧ rest = head' ++ pattern ++ tail := by
        cases head with
        | nil => exact absurd (List.isPrefixOf_iff_prefix.mpr ⟨tail, stands.symm⟩) startsNot
        | cons d head =>
          obtain ⟨rfl, isRest⟩ := List.cons.inj stands
          exact ⟨head, rfl, isRest⟩
      obtain ⟨tail, isRest, least⟩ | ⟨isRest, nowhere⟩ := inductionHypothesis
      · refine .inl ⟨tail, congrArg (c :: ·) isRest, fun earlier tail stands => ?_⟩
        obtain ⟨earlier, rfl, standsInRest⟩ := later stands
        exact Nat.succ_le_succ (least earlier tail standsInRest)
      · refine .inr ⟨congrArg (c :: ·) isRest, fun head tail stands => ?_⟩
        obtain ⟨head, rfl, standsInRest⟩ := later stands
        exact nowhere head tail standsInRest

theorem eq_append_iff {text head pattern tail : String} :
    text = head ++ pattern ++ tail ↔
      text.toList = head.toList ++ pattern.toList ++ tail.toList := by
  rw [← String.toList_inj, String.toList_append, String.toList_append]

theorem beforeFirst_cases (text pattern : String) :
    FirstAfter pattern text (beforeFirst text pattern) ∨
      ¬ Occurs pattern text ∧ beforeFirst text pattern = text := by
  obtain ⟨tail, isText, least⟩ | ⟨isText, nowhere⟩ := charsBefore_cases pattern.toList text.toList
  · refine .inl ⟨⟨String.ofList tail, ?_⟩, fun earlier tail stands => ?_⟩
    · rw [eq_append_iff, beforeFirst, String.toList_ofList, String.toList_ofList]
      exact isText
    · rw [← String.length_toList, ← String.length_toList, beforeFirst, String.toList_ofList]
      exact least earlier.toList tail.toList (eq_append_iff.mp stands)
  · refine .inr ⟨?_, ?_⟩
    · rintro ⟨head, tail, stands⟩
      exact nowhere head.toList tail.toList (eq_append_iff.mp stands)
    · rw [beforeFirst, isText, String.ofList_toList]

theorem beforeFirst_eq_iff : beforeFirst text pattern = head ↔
    FirstAfter pattern text head ∨ ¬ Occurs pattern text ∧ head = text := by
  constructor
  · rintro rfl
    exact beforeFirst_cases text pattern
  · obtain first | ⟨nowhere, isText⟩ := beforeFirst_cases text pattern
    · rintro (second | ⟨nowhere, _⟩)
      · exact first.unique second
      · exact absurd first.occurs nowhere
    · rintro (second | ⟨_, rfl⟩)
      · exact absurd second.occurs nowhere
      · exact isText

/-- An occurrence in front of the one at the end lies inside the text or overlaps it. -/
theorem onlyAtEnd_append (noOverlap : ¬ OverlapsItself pattern)
    (notInside : ¬ Occurs pattern text) : OnlyAtEnd pattern (text ++ pattern) := by
  intro head tail stands
  have sameText : text.toList ++ pattern.toList =
      head.toList ++ (pattern.toList ++ tail.toList) := by
    simpa using congrArg String.toList stands
  obtain ⟨more, _, atEnd⟩ | ⟨between, isText, shifted⟩ := List.append_eq_append_iff.mp sameText
  · have lengths := congrArg List.length atEnd
    simp only [List.length_append] at lengths
    exact String.toList_eq_nil_iff.mp (List.length_eq_zero_iff.mp (by omega))
  · have insideNot (inside : List Char) : between ≠ pattern.toList ++ inside := by
      rintro rfl
      refine notInside ⟨head, String.ofList inside, eq_append_iff.mpr ?_⟩
      rw [isText, String.toList_ofList, List.append_assoc]
    obtain ⟨inside, isBetween, _⟩ | ⟨common, isEnd, isStart⟩ := List.append_eq_append_iff.mp shifted
    · exact absurd isBetween (insideNot inside)
    · by_contra nonempty
      refine noOverlap ⟨String.ofList common, String.ofList between, tail, ?_, nonempty, ?_, ?_⟩
      · intro isEmpty
        obtain rfl : common = [] := String.ofList_eq_empty_iff.mp isEmpty
        exact insideNot [] (by rw [isEnd, List.append_nil, List.append_nil])
      · rw [← String.toList_inj, String.toList_append, String.toList_ofList]
        exact isStart
      · rw [← String.toList_inj, String.toList_append, String.toList_ofList, String.toList_ofList]
        exact isEnd

def overlapsItself (text : String) : Bool :=
  (List.range text.toList.length).any fun n =>
    n ≠ 0 && (text.toList.take n).isSuffixOf text.toList

theorem overlapsItself_eq_true_iff : overlapsItself text = true ↔ OverlapsItself text := by
  simp only [overlapsItself, List.any_eq_true, List.mem_range, Bool.and_eq_true, decide_eq_true_eq,
    List.isSuffixOf_iff_suffix]
  constructor
  · rintro ⟨n, proper, nonzero, head, isEnd⟩
    refine ⟨String.ofList (text.toList.take n), String.ofList head,
      String.ofList (text.toList.drop n), ?_, ?_, ?_, ?_⟩
    · rw [Ne, String.ofList_eq_empty_iff, List.take_eq_nil_iff]
      rintro (isZero | isNil)
      · exact nonzero isZero
      · exact absurd proper (by simp [isNil])
    · rw [Ne, String.ofList_eq_empty_iff, List.drop_eq_nil_iff]
      exact Nat.not_le.mpr proper
    · simp [← String.toList_inj]
    · simp [← String.toList_inj, isEnd]
  · rintro ⟨common, head, tail, nonempty, proper, isStart, isEnd⟩
    have startLength : 0 < common.toList.length :=
      List.length_pos_iff.mpr fun isNil => nonempty (String.toList_eq_nil_iff.mp isNil)
    have tailLength : 0 < tail.toList.length :=
      List.length_pos_iff.mpr fun isNil => proper (String.toList_eq_nil_iff.mp isNil)
    refine ⟨common.toList.length, ?_, by omega, head.toList, ?_⟩
    · rw [isStart, String.toList_append, List.length_append]
      omega
    · rw [← String.toList_inj, String.toList_append] at isStart isEnd
      nth_rewrite 1 [isStart]
      rw [List.take_left, isEnd]

instance : DecidablePred OverlapsItself := fun _ => decidable_of_iff _ overlapsItself_eq_true_iff

end Occurrences

namespace Naming

variable {naming : Naming} {name buffer : String}

/-- The buffer that a descriptor is named after: its name without the descriptor suffix at its end,
and the whole name if it does not end so. -/
def Describes (naming : Naming) (name buffer : String) : Prop :=
  name = buffer ++ naming.descriptorSuffix ∨
    buffer = name ∧ ∀ head, name ≠ head ++ naming.descriptorSuffix

theorem describes_iff : naming.Describes name buffer ↔
    (beforeSuffix? name naming.descriptorSuffix).getD name = buffer := by
  rw [Describes]
  cases isSubject : beforeSuffix? name naming.descriptorSuffix with
  | none =>
    have endsNot (head : String) : name ≠ head ++ naming.descriptorSuffix := by
      simp [← beforeSuffix?_eq_some_iff, isSubject]
    simp [endsNot, eq_comm]
  | some subject =>
    rw [beforeSuffix?_eq_some_iff] at isSubject
    simp [isSubject]

/-- The name is cut at the end exactly when the suffix stands nowhere else. -/
theorem describes_bufferOf_iff : naming.Describes name (naming.bufferOf name) ↔
    OnlyAtEnd naming.descriptorSuffix name := by
  rw [bufferOf]
  obtain first | ⟨nowhere, isName⟩ := beforeFirst_cases name naming.descriptorSuffix
  · constructor
    · rintro (isName | ⟨isName, endsNot⟩) head tail stands
      · have notEarlier := first.least head tail stands
        have lengths := congrArg String.length (isName.symm.trans stands)
        simp only [String.length_append] at lengths
        exact String.length_eq_zero_iff.mp (by omega)
      · -- All of the name is kept only if the suffix is empty, and then the name ends in it.
        obtain ⟨rest, standsFirst⟩ := first.stands
        have lengths := congrArg String.length standsFirst
        rw [isName] at lengths
        simp only [String.length_append] at lengths
        have isEmpty : naming.descriptorSuffix = "" := String.length_eq_zero_iff.mp (by omega)
        exact absurd (by rw [isEmpty, String.append_empty]) (endsNot name)
    · intro onlyAtEnd
      obtain ⟨tail, stands⟩ := first.stands
      obtain rfl := onlyAtEnd _ _ stands
      exact .inl (by rwa [String.append_empty] at stands)
  · constructor
    · intro _ head tail stands
      exact absurd ⟨head, tail, stands⟩ nowhere
    · intro _
      refine .inr ⟨isName, fun head ends => nowhere ⟨head, "", ?_⟩⟩
      rw [String.append_empty, ends]

theorem bufferOf_eq_iff_onlyAtEnd (describes : naming.Describes name buffer) :
    naming.bufferOf name = buffer ↔ OnlyAtEnd naming.descriptorSuffix name := by
  rw [← describes_bufferOf_iff, describes_iff, describes_iff.mp describes, eq_comm]

theorem bufferOf_append_eq_iff : naming.bufferOf (buffer ++ naming.descriptorSuffix) = buffer ↔
    OnlyAtEnd naming.descriptorSuffix (buffer ++ naming.descriptorSuffix) :=
  bufferOf_eq_iff_onlyAtEnd (.inl rfl)

/-- A suffix that overlaps itself can begin before the end of a name that does not hold it. -/
theorem forall_bufferOf_append_iff (naming : Naming) :
    (∀ buffer, ¬ Occurs naming.descriptorSuffix buffer →
        naming.bufferOf (buffer ++ naming.descriptorSuffix) = buffer) ↔
      ¬ OverlapsItself naming.descriptorSuffix := by
  constructor
  · rintro keeps ⟨common, head, tail, nonempty, proper, isStart, isEnd⟩
    have shorter : ¬ Occurs naming.descriptorSuffix head := by
      rintro ⟨before, after, stands⟩
      have lengths := congrArg String.length isEnd
      rw [stands] at lengths
      simp only [String.length_append] at lengths
      exact nonempty (String.length_eq_zero_iff.mp (by omega))
    refine proper (bufferOf_append_eq_iff.mp (keeps head shorter) "" tail ?_)
    rw [String.empty_append]
    nth_rewrite 1 [isStart]
    rw [← String.append_assoc, ← isEnd]
  · intro noOverlap buffer notInside
    exact bufferOf_append_eq_iff.mpr (onlyAtEnd_append noOverlap notInside)

-- The name `x.b` is free of the suffix.
example : { standard with descriptorSuffix := ".b." }.bufferOf ("x.b" ++ ".b.") = "x" := rfl

/-- A buffer whose name is the suffix and more does not get its name back. -/
theorem exists_bufferOf_append_ne (naming : Naming) :
    ∃ buffer, naming.bufferOf (buffer ++ naming.descriptorSuffix) ≠ buffer := by
  refine ⟨naming.descriptorSuffix ++ "x", fun isBuffer => ?_⟩
  have isEmpty := bufferOf_append_eq_iff.mp isBuffer "" ("x" ++ naming.descriptorSuffix)
    (by simp [String.append_assoc])
  have isNil := congrArg String.toList isEmpty
  simp at isNil

end Naming

inductive Construct.SizesDescribed (naming : Naming) : Construct → String → List Expr → Prop
  | allocate {name type extents} : SizesDescribed naming (.allocate name type extents) name extents
  | define {name value memory shape buffer} : BuildsDescriptor value memory shape →
      naming.Describes memory buffer →
      SizesDescribed naming (.define name value) buffer (extentFields shape)

/-- The size is the product of the extents that the innermost construct gives to the buffer, when
descriptors size the buffers that their memory is named after. -/
def SizedAsDescribed (naming : Naming) (around : List Construct) (name : String)
    (size : Option Expr) : Prop :=
  ∃ extents, Innermost (Construct.SizesDescribed naming · name) around extents ∧
    extents.map Expr.product = size.map some

def PlainlyDescribed (naming : Naming) (around : List Construct) : Prop :=
  ∀ name value memory shape, .define name value ∈ around → BuildsDescriptor value memory shape →
    OnlyAtEnd naming.descriptorSuffix memory

section Keys

variable {naming : Naming} {around : List Construct} {name : String}

theorem Innermost.of_iff {α : Type} {Tells TellsToo : Construct → α → Prop}
    (same : ∀ c ∈ around, ∀ a, Tells c a ↔ TellsToo c a) {told : Option α}
    (innermost : Innermost Tells around told) : Innermost TellsToo around told := by
  induction innermost with
  | nowhere => exact .nowhere
  | here tells => exact .here ((same _ List.mem_cons_self _).mp tells)
  | further silent _ inductionHypothesis =>
    refine .further (fun a tells => silent a ((same _ List.mem_cons_self a).mpr tells)) ?_
    exact inductionHypothesis fun c membership => same c (List.mem_cons_of_mem _ membership)

theorem PlainlyDescribed.sizes_iff (plain : PlainlyDescribed naming around) {c : Construct}
    (membership : c ∈ around) (extents : List Expr) :
    c.Sizes naming name extents ↔ c.SizesDescribed naming name extents := by
  constructor
  · rintro (_ | builds)
    · exact .allocate
    · exact .define builds (Naming.describes_bufferOf_iff.mpr (plain _ _ _ _ membership builds))
  · rintro (_ | ⟨builds, describes⟩)
    · exact .allocate
    · have isBuffer := (Naming.bufferOf_eq_iff_onlyAtEnd describes).mpr
        (plain _ _ _ _ membership builds)
      exact isBuffer ▸ .define builds

theorem PlainlyDescribed.sizedBy_iff (plain : PlainlyDescribed naming around)
    {size : Option Expr} :
    SizedBy naming around name size ↔ SizedAsDescribed naming around name size := by
  constructor
  · rintro ⟨extents, innermost, isSize⟩
    exact ⟨extents, innermost.of_iff fun c membership => plain.sizes_iff membership, isSize⟩
  · rintro ⟨extents, innermost, isSize⟩
    exact ⟨extents, innermost.of_iff fun c membership a => (plain.sizes_iff membership a).symm,
      isSize⟩

theorem Host.letEnv_descriptor {value : Expr} {memory : String} {shape : List Expr} {size : Expr}
    (builds : BuildsDescriptor value memory shape) (whole : shape.length % 4 = 0)
    (isSize : Expr.product (extentFields shape) = some size) (env : Env) :
    letEnv naming env value =
      .ok { env with sizes := env.sizes.push (naming.bufferOf memory) size } := by
  rw [letEnv, descriptorShape?_eq_some_iff.mpr builds]
  simp only [BufferSizes.recordShape_of_length env.sizes _ whole, BufferSizes.recordAllocation,
    isSize]
  rfl

end Keys

/-- The buffer arguments of the record have the sizes told around the region, if every memory there
is named plainly. -/
def RegionSite.SizedByName (config : Config) (site : RegionSite) (record : RegionRecord) : Prop :=
  PlainlyDescribed config.naming site.around →
    ∀ arg ∈ record.args, ∀ size read write, arg.role = .memory size read write →
      ∀ told, SizedAsDescribed config.naming site.around arg.name told ↔ told = size

theorem RegionSite.Annotated.sizedByName {config : Config} {site : RegionSite}
    {record : RegionRecord} (annotated : site.Annotated config record) :
    site.SizedByName config record := by
  intro plain arg membership size read write isMemory told
  rw [← plain.sizedBy_iff]
  exact annotated.memory arg membership size read write isMemory told

theorem sizedByName_of_generate {config : Config} {p : Pipeline} {g : Generated}
    (succeeded : generate config p = .ok g) :
    List.Forall₂ (RegionSite.SizedByName config)
      (p.body.regionSites config.naming.regionStart []) g.regions := by
  obtain ⟨_, -, called⟩ := calledIn_of_generate succeeded
  exact called.imp fun _ _ calledIn => calledIn.annotated.sizedByName

/-- The name of a descriptor is cut at the first occurrence of the suffix. That is the name of the
buffer that the descriptor is named after exactly when the suffix stands nowhere but at the end. The
size is recorded under the name found so; where all descriptors around a region are named plainly,
the arguments of the region have the sizes of the buffers that the descriptors are named after. All
buffers whose name is free of the suffix get their name back exactly when the suffix does not
overlap itself, and no suffix gives all buffers their name back. -/
theorem descriptor_key_exact (config : Config) :
    (∀ name key, config.naming.bufferOf name = key ↔
      FirstAfter config.naming.descriptorSuffix name key ∨
        ¬ Occurs config.naming.descriptorSuffix name ∧ key = name) ∧
    (∀ name buffer, config.naming.Describes name buffer →
      (config.naming.bufferOf name = buffer ↔ OnlyAtEnd config.naming.descriptorSuffix name)) ∧
    (∀ env value memory shape size, BuildsDescriptor value memory shape →
      shape.length % 4 = 0 → Expr.product (extentFields shape) = some size →
      (Host.emitter config).letEnv env value =
        .ok { env with sizes := env.sizes.push (config.naming.bufferOf memory) size }) ∧
    (∀ p g, generate config p = .ok g →
      List.Forall₂ (RegionSite.SizedByName config)
        (p.body.regionSites config.naming.regionStart []) g.regions) ∧
    ((∀ buffer, ¬ Occurs config.naming.descriptorSuffix buffer →
        config.naming.bufferOf (buffer ++ config.naming.descriptorSuffix) = buffer) ↔
      ¬ OverlapsItself config.naming.descriptorSuffix) ∧
    ∃ buffer, config.naming.bufferOf (buffer ++ config.naming.descriptorSuffix) ≠ buffer := by
  refine ⟨?_, ?_, ?_, ?_, ?_, ?_⟩
  · exact fun name key => beforeFirst_eq_iff
  · exact fun name buffer describes => Naming.bufferOf_eq_iff_onlyAtEnd describes
  · intro env value memory shape size builds whole isSize
    exact Host.letEnv_descriptor builds whole isSize env
  · exact fun p g succeeded => sizedByName_of_generate succeeded
  · exact config.naming.forall_bufferOf_append_iff
  · exact config.naming.exists_bufferOf_append_ne

def sixElements (memory : String) : Expr :=
  let zero : Expr := .ofInt 0
  .call "buffer_init" .handle
    [.var memory .handle, zero, zero, zero, zero, zero, zero, zero,
      .call "make_struct" .handle [zero, .ofInt 6, zero, zero]]

def describedCopy (memory : String) : Pipeline :=
  ⟨"copy", [⟨.buffer, "in", .default⟩, ⟨.buffer, "in.buffer.copy", .default⟩],
    .letIn "descriptor" (sixElements memory)
      (.produce "_hls_target.copy"
        (.store "in.buffer.copy" (.load "in" .default (.ofInt 0)) (.ofInt 0)))⟩

/-- Under the standard conventions every buffer whose name is free of the suffix gets its name back,
and the descriptor of `in` gives its size to `in`. -/
theorem descriptor_key_exact_describedCopy :
    Naming.standard.Describes "in.buffer" "in" ∧ OnlyAtEnd ".buffer" "in.buffer" ∧
      ¬ OverlapsItself ".buffer" ∧
      (∀ buffer, ¬ Occurs ".buffer" buffer →
        Naming.standard.bufferOf (buffer ++ ".buffer") = buffer) ∧
      (Host.emitter .standard).letEnv .empty (sixElements "in.buffer") =
        .ok ⟨Scope.empty.push "in" (.ofInt 6), .empty⟩ ∧
      ∃ g, generate .standard (describedCopy "in.buffer") = .ok g ∧
        g.regions.map RegionRecord.signature =
          ["void hls_target_copy(int32_t in[6], int32_t *in_buffer_copy)"] ∧
        ∀ told, SizedAsDescribed .standard [.define "descriptor" (sixElements "in.buffer")] "in"
          told ↔ told = some (.ofInt 6) := by
  obtain ⟨-, onlyAtEnd, recorded, sized, keeps, -⟩ := descriptor_key_exact .standard
  have describes : Naming.standard.Describes "in.buffer" "in" := .inl rfl
  have atEnd : OnlyAtEnd ".buffer" "in.buffer" := (onlyAtEnd _ _ describes).mp rfl
  have noOverlap : ¬ OverlapsItself ".buffer" := by decide
  have builds : BuildsDescriptor (sixElements "in.buffer") "in.buffer"
      [.ofInt 0, .ofInt 6, .ofInt 0, .ofInt 0] := .mk rfl rfl
  have plain : PlainlyDescribed .standard [.define "descriptor" (sixElements "in.buffer")] := by
    intro name value memory shape membership describesMemory
    cases List.mem_singleton.mp membership
    cases descriptorShape?_eq_some_iff.mpr describesMemory
    exact atEnd
  refine ⟨describes, atEnd, noOverlap, keeps.mpr noOverlap,
    recorded .empty _ _ _ (.ofInt 6) builds rfl rfl, _, rfl, rfl, ?_⟩
  cases sized (describedCopy "in.buffer") _ rfl with
  | cons first _ => exact first plain _ List.mem_cons_self _ _ _ rfl

/-- The memory is named after `in.buffer.copy`, a name that does not end in the suffix itself. Both
are cut to `in`, so that the size goes to the other buffer. -/
theorem nested_descriptor_missed :
    Config.standard.fault? = none ∧
      Naming.standard.Describes "in.buffer.copy.buffer" "in.buffer.copy" ∧
      Naming.standard.bufferOf "in.buffer.copy.buffer" = "in" ∧
      Naming.standard.Describes "in.buffer.copy" "in.buffer.copy" ∧
      Naming.standard.bufferOf "in.buffer.copy" = "in" ∧
      ∃ g, generate .standard (describedCopy "in.buffer.copy.buffer") = .ok g ∧
        g.regions.map RegionRecord.signature =
          ["void hls_target_copy(int32_t in[6], int32_t *in_buffer_copy)"] :=
  ⟨rfl, .inl rfl, rfl, Naming.describes_iff.mpr rfl, rfl, _, rfl, rfl⟩

end StreamSynth
