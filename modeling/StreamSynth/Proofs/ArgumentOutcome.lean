import StreamSynth.Proofs.HiddenParameter

/-!
# Outcomes of building arguments

A closure has arguments exactly when each of its variables can be passed and no two of its names
have one identifier. Otherwise the first variable that cannot be passed is reported, and without
such a variable the first name whose identifier is that of an earlier one. Only variables are
classified, so an update accumulator is kept from a kernel as long as it is no buffer.
-/

namespace StreamSynth

section Binding

variable {α : Type} {scope : Scope α} {name : String}

def Scope.Binds (scope : Scope α) (name : String) (value : α) : Prop :=
  ∃ inner outer, scope.bindings = inner ++ (name, value) :: outer ∧
    ∀ binding ∈ inner, binding.1 ≠ name

theorem Scope.get?_eq_some_iff {value : α} :
    scope.get? name = some value ↔ scope.Binds name value := by
  simp only [Scope.get?, Scope.Binds, List.lookup_eq_some_iff, bne_iff_ne, ne_comm (a := name)]

theorem Scope.get?_eq_none_iff : scope.get? name = none ↔ ∀ value, ¬ scope.Binds name value := by
  simp only [← Scope.get?_eq_some_iff, Option.eq_none_iff_forall_ne_some, ne_eq]

end Binding

namespace Argument

variable (stencils : Scope StencilType) (naming : Naming) (region : String)

/-- How a captured variable is passed. The class of the name decides, and a stencil has the type
of its innermost binding. -/
inductive Passes : String × ScalarType → Argument → Prop
  | scalar {name type} : naming.classify name region = .ok .scalar →
      Passes (name, type) ⟨name, type, .scalar⟩
  | stream {name type stencil} : naming.classify name region = .ok .stencil →
      stencils.Binds name stencil →
      Passes (name, type) ⟨name, stencil.element, .stream (some stencil)⟩

inductive Offends : String × ScalarType → LoweringError → Prop
  | unclassified {name type e} : naming.classify name region = .error e → Offends (name, type) e
  | unscoped {name type} : naming.classify name region = .ok .stencil →
      (∀ stencil, ¬ stencils.Binds name stencil) →
      Offends (name, type) (.unscopedStream name region)

variable {stencils naming region} {entry : String × ScalarType}

theorem ofVariable_eq_ok_iff {arg : Argument} :
    ofVariable stencils naming region entry = .ok arg ↔
      Passes stencils naming region entry arg := by
  obtain ⟨name, type⟩ := entry
  constructor
  · intro passed
    simp only [ofVariable] at passed
    split at passed
    · cases passed
    · next isScalar =>
      cases passed
      exact .scalar isScalar
    · next isStencil =>
      split at passed
      · next stencil known =>
        cases passed
        exact .stream isStencil (Scope.get?_eq_some_iff.mp known)
      · cases passed
  · rintro (isScalar | ⟨isStencil, bound⟩)
    · simp only [ofVariable, isScalar]
    · simp only [ofVariable, isStencil, Scope.get?_eq_some_iff.mpr bound]

theorem ofVariable_eq_error_iff {e : LoweringError} :
    ofVariable stencils naming region entry = .error e ↔
      Offends stencils naming region entry e := by
  obtain ⟨name, type⟩ := entry
  constructor
  · intro refused
    simp only [ofVariable] at refused
    split at refused
    · next isError =>
      cases refused
      exact .unclassified isError
    · cases refused
    · next isStencil =>
      split at refused
      · cases refused
      · next unknown =>
        cases refused
        exact .unscoped isStencil (Scope.get?_eq_none_iff.mp unknown)
  · rintro (isError | ⟨isStencil, unbound⟩)
    · simp only [ofVariable, isError]
    · simp only [ofVariable, isStencil, Scope.get?_eq_none_iff.mpr unbound]

theorem Passes.name_eq {arg : Argument} (passes : Passes stencils naming region entry arg) :
    arg.name = entry.1 := by
  cases passes <;> rfl

theorem names_of_passes {entries : List (String × ScalarType)} {vars : List Argument}
    (passed : List.Forall₂ (Passes stencils naming region) entries vars) :
    vars.map name = entries.map Prod.fst := by
  induction passed with
  | nil => rfl
  | cons first _ inductionHypothesis =>
    rw [List.map_cons, List.map_cons, first.name_eq, inductionHypothesis]

/-- A variable can be passed if its name has a class, which for a stencil takes a binding. -/
theorem exists_ofVariable_eq_ok_iff :
    (∃ arg, ofVariable stencils naming region entry = .ok arg) ↔
      ∃ nameClass, naming.classify entry.1 region = .ok nameClass ∧
        (nameClass = .stencil → ∃ stencil, stencils.Binds entry.1 stencil) := by
  simp only [ofVariable_eq_ok_iff]
  constructor
  · rintro ⟨_, isScalar | ⟨isStencil, bound⟩⟩
    · exact ⟨.scalar, isScalar, by simp⟩
    · exact ⟨.stencil, isStencil, fun _ => ⟨_, bound⟩⟩
  · obtain ⟨name, type⟩ := entry
    rintro ⟨nameClass, isClass, bound⟩
    cases nameClass with
    | scalar => exact ⟨_, .scalar isClass⟩
    | stencil =>
      obtain ⟨stencil, binds⟩ := bound rfl
      exact ⟨_, .stream isClass binds⟩

theorem not_offends_iff :
    (∀ e, ¬ Offends stencils naming region entry e) ↔
      ∃ arg, ofVariable stencils naming region entry = .ok arg := by
  simp only [← ofVariable_eq_error_iff]
  cases ofVariable stencils naming region entry with
  | error e => simp
  | ok arg => simp

end Argument

namespace Closure

def names (c : Closure) : List String := c.buffers.map BufferUse.name ++ c.vars.map Prod.fst

variable (c : Closure) (stencils : Scope StencilType) (naming : Naming) (region : String)

/-- The arguments are the buffers and then the variables, one for each captured name, and their
identifiers differ. -/
structure Yields (args : List Argument) : Prop where
  args_eq : ∃ vars, List.Forall₂ (Argument.Passes stencils naming region) c.vars vars ∧
    args = c.buffers.map (fun b => ⟨b.name, b.type, .memory none b.read b.write⟩) ++ vars
  names_eq : args.map Argument.name = c.names
  distinct : ((args.map Argument.name).map identifier).Nodup

/-- The error is that of the first variable that cannot be passed. If there is none, it reports
the first name whose identifier is that of an earlier one. -/
inductive Fails : LoweringError → Prop
  | offence {before entry after e} : c.vars = before ++ entry :: after →
      (∀ earlier ∈ before, ∀ e, ¬ Argument.Offends stencils naming region earlier e) →
      Argument.Offends stencils naming region entry e → Fails e
  | collision {first second} :
      (∀ entry ∈ c.vars, ∀ e, ¬ Argument.Offends stencils naming region entry e) →
      FirstRepeat c.names first second →
      Fails (.argumentCollision first second (identifier second) region)

variable {c stencils naming region}

theorem mapM_ofVariable_eq_ok_iff {vars : List Argument} :
    c.vars.mapM (Argument.ofVariable stencils naming region) = .ok vars ↔
      List.Forall₂ (Argument.Passes stencils naming region) c.vars vars := by
  simp only [mapM_eq_ok_iff, Argument.ofVariable_eq_ok_iff]

theorem mapM_ofVariable_eq_error_iff {e : LoweringError} :
    c.vars.mapM (Argument.ofVariable stencils naming region) = .error e ↔
      ∃ before entry after, c.vars = before ++ entry :: after ∧
        (∀ earlier ∈ before, ∀ e, ¬ Argument.Offends stencils naming region earlier e) ∧
        Argument.Offends stencils naming region entry e := by
  simp only [mapM_eq_error_iff, Argument.ofVariable_eq_error_iff, Argument.not_offends_iff]

theorem map_name_append {vars : List Argument}
    (passed : List.Forall₂ (Argument.Passes stencils naming region) c.vars vars) :
    (c.buffers.map Argument.ofBuffer ++ vars).map Argument.name = c.names := by
  rw [List.map_append, List.map_map, Argument.names_of_passes passed, names]
  rfl

/-- When all variables can be passed, the identifiers decide. -/
theorem arguments_of_passes {vars : List Argument}
    (passed : List.Forall₂ (Argument.Passes stencils naming region) c.vars vars) :
    c.arguments stencils naming region =
      (Argument.checkIdentifiers region [] (c.buffers.map Argument.ofBuffer ++ vars)).map
        fun _ => c.buffers.map Argument.ofBuffer ++ vars := by
  rw [arguments, mapM_ofVariable_eq_ok_iff.mpr passed]
  rfl

theorem arguments_eq_ok_iff {args : List Argument} :
    c.arguments stencils naming region = .ok args ↔ c.Yields stencils naming region args := by
  constructor
  · intro succeeded
    obtain ⟨vars, areVars, rfl, checked⟩ := arguments_eq_ok succeeded
    have passed := mapM_ofVariable_eq_ok_iff.mp areVars
    exact ⟨⟨vars, passed, rfl⟩, map_name_append passed,
      Argument.checkIdentifiers_eq_ok_iff.mp checked⟩
  · rintro ⟨⟨vars, passed, rfl⟩, _, distinct⟩
    have checked : Argument.checkIdentifiers region [] (c.buffers.map Argument.ofBuffer ++ vars) =
        .ok () := Argument.checkIdentifiers_eq_ok_iff.mpr distinct
    rw [arguments_of_passes passed, checked]
    rfl

theorem exists_passes_iff :
    (∃ vars, List.Forall₂ (Argument.Passes stencils naming region) c.vars vars) ↔
      ∀ entry ∈ c.vars, ∀ e, ¬ Argument.Offends stencils naming region entry e := by
  simp only [← mapM_ofVariable_eq_ok_iff, exists_mapM_eq_ok_iff, Argument.not_offends_iff]

theorem arguments_eq_error_iff {e : LoweringError} :
    c.arguments stencils naming region = .error e ↔ c.Fails stencils naming region e := by
  constructor
  · intro failed
    cases areVars : c.vars.mapM (Argument.ofVariable stencils naming region) with
    | error stop =>
      rw [arguments, areVars] at failed
      cases failed
      obtain ⟨before, entry, after, areEntries, passed, offends⟩ :=
        mapM_ofVariable_eq_error_iff.mp areVars
      exact .offence areEntries passed offends
    | ok vars =>
      have passed := mapM_ofVariable_eq_ok_iff.mp areVars
      rw [arguments_of_passes passed] at failed
      cases checked : Argument.checkIdentifiers region []
          (c.buffers.map Argument.ofBuffer ++ vars) with
      | ok _ =>
        rw [checked] at failed
        cases failed
      | error stop =>
        rw [checked] at failed
        cases failed
        obtain ⟨first, second, repeats, rfl⟩ := Argument.checkIdentifiers_eq_error_iff.mp checked
        rw [map_name_append passed] at repeats
        exact .collision (exists_passes_iff.mp ⟨vars, passed⟩) repeats
  · rintro (⟨areEntries, passed, offends⟩ | @⟨first, second, allPass, repeats⟩)
    · rw [arguments, mapM_ofVariable_eq_error_iff.mpr ⟨_, _, _, areEntries, passed, offends⟩]
      rfl
    · obtain ⟨vars, passed⟩ := exists_passes_iff.mpr allPass
      rw [← map_name_append passed] at repeats
      rw [arguments_of_passes passed,
        Argument.checkIdentifiers_eq_error_iff.mpr ⟨first, second, repeats, rfl⟩]
      rfl

/-- A closure has arguments exactly when the name of each variable has a class, each name of a
stencil is bound in the scope and all captured names have identifiers of their own. They are the
buffers and the variables in order; any failure is the first one in order. -/
theorem arguments_outcome (c : Closure) (stencils : Scope StencilType) (naming : Naming)
    (region : String) :
    ((∃ args, c.arguments stencils naming region = .ok args) ↔
      (∀ entry ∈ c.vars, ∃ nameClass, naming.classify entry.1 region = .ok nameClass ∧
        (nameClass = .stencil → ∃ stencil, stencils.Binds entry.1 stencil)) ∧
      (c.names.map identifier).Nodup) ∧
    (∀ args, c.arguments stencils naming region = .ok args ↔
      c.Yields stencils naming region args) ∧
    (∀ e, c.arguments stencils naming region = .error e ↔
      c.Fails stencils naming region e) := by
  refine ⟨?_, fun _ => arguments_eq_ok_iff, fun _ => arguments_eq_error_iff⟩
  simp only [arguments_eq_ok_iff, ← Argument.exists_ofVariable_eq_ok_iff, ← exists_mapM_eq_ok_iff]
  constructor
  · rintro ⟨args, ⟨vars, passed, _⟩, namesEq, distinct⟩
    rw [namesEq] at distinct
    exact ⟨⟨vars, mapM_ofVariable_eq_ok_iff.mpr passed⟩, distinct⟩
  · rintro ⟨⟨vars, areVars⟩, distinct⟩
    have passed := mapM_ofVariable_eq_ok_iff.mp areVars
    rw [← map_name_append passed] at distinct
    exact ⟨_, ⟨vars, passed, rfl⟩, map_name_append passed, distinct⟩

end Closure

section Updates

variable {stencils : Scope StencilType} {naming : Naming} {region name : String}

def Naming.NamesUpdate (naming : Naming) (name : String) : Prop :=
  ∃ suffix ∈ naming.updateSuffixes, suffix.toList <:+ name.toList

theorem Naming.isUpdate_eq_true_iff : naming.isUpdate name = true ↔ naming.NamesUpdate name := by
  simp only [isUpdate, NamesUpdate, List.any_eq_true, endsIn, List.isSuffixOf_iff_suffix]

/-- An update accumulator cannot be passed as a variable. -/
theorem Naming.NamesUpdate.offends (update : naming.NamesUpdate name) (type : ScalarType) :
    Argument.Offends stencils naming region (name, type) (.updateInRegion name region) :=
  .unclassified (if_pos (Naming.isUpdate_eq_true_iff.mpr update))

/-- Among the arguments of a region, update accumulators are those that the body loads from or
stores to, and they are passed as buffers. So one that the body uses as a variable is refused
unless it is a buffer too. -/
theorem Closure.update_arguments {body : Stmt} {args : List Argument}
    (succeeded : (capture body).arguments stencils naming region = .ok args) :
    (∀ arg ∈ args, naming.NamesUpdate arg.name →
      ∃ read write, arg.role = .memory none read write) ∧
    ∀ name, naming.NamesUpdate name →
      (name ∈ args.map Argument.name ↔
        (∃ type, .load name type ∈ body.freeOccurrences) ∨
          ∃ type, .store name type ∈ body.freeOccurrences) ∧
      ((∃ type, .var name type ∈ body.freeOccurrences) → name ∈ args.map Argument.name) := by
  obtain ⟨⟨vars, passed, areArgs⟩, namesEq, _⟩ := arguments_eq_ok_iff.mp succeeded
  have noVariable : ∀ name, naming.NamesUpdate name → name ∉ (capture body).vars.map Prod.fst := by
    intro name update isVariable
    obtain ⟨⟨_, type⟩, isEntry, rfl⟩ := List.mem_map.mp isVariable
    exact exists_passes_iff.mp ⟨vars, passed⟩ _ isEntry _ (update.offends type)
  constructor
  · rw [areArgs, List.forall_mem_append, List.forall_mem_map]
    constructor
    · exact fun buffer _ _ => ⟨buffer.read, buffer.write, rfl⟩
    · intro arg isVariable update
      have isName := List.mem_map_of_mem (f := Argument.name) isVariable
      rw [Argument.names_of_passes passed] at isName
      exact absurd isName (noVariable arg.name update)
  · intro name update
    constructor
    · rw [namesEq, names, List.mem_append, or_iff_left (noVariable name update),
        (noted_capture body).mem_buffers, Occurrence.exists_accesses_iff]
    · rintro ⟨type, isFree⟩
      exact (mem_argument_names_iff succeeded name).mpr (List.mem_map_of_mem isFree)

def storeUpdate : Stmt := .store "sum.stencil_update" (.ofInt 1) (.ofInt 0)

def readAndStoreUpdate : Stmt :=
  .block (.evaluate (.var "sum.stencil_update" .default)) storeUpdate

theorem namesUpdate_sum : Naming.standard.NamesUpdate "sum.stencil_update" :=
  Naming.isUpdate_eq_true_iff.mp (by decide)

theorem Closure.update_arguments_readAndStoreUpdate :
    ∃ args, (capture readAndStoreUpdate).arguments .empty .standard "hw" = .ok args ∧
      "sum.stencil_update" ∈ args.map Argument.name ∧
      ∀ arg ∈ args, Naming.standard.NamesUpdate arg.name →
        ∃ read write, arg.role = .memory none read write := by
  refine ⟨_, rfl, ?_⟩
  obtain ⟨buffers, crosses⟩ := @update_arguments .empty .standard "hw" readAndStoreUpdate _ rfl
  exact ⟨(crosses _ namesUpdate_sum).1.mpr (.inr ⟨.default, by decide⟩), buffers⟩

/-- The kernel of a region that only stores to the accumulator takes it as a parameter. -/
theorem Closure.storeUpdate_crosses :
    Naming.standard.NamesUpdate "sum.stencil_update" ∧
      (capture storeUpdate).arguments .empty .standard "hw" =
        .ok [⟨"sum.stencil_update", .default, .memory none false true⟩] ∧
      ∃ after, Host.lowerRegion .standard "hw" storeUpdate .empty (.start .standard) =
          .ok () after ∧
        after.regions.toList.map RegionRecord.signature =
          ["void hls_target_hw(int32_t *sum_stencil_update)"] :=
  ⟨namesUpdate_sum, rfl, _, rfl, rfl⟩

end Updates

end StreamSynth
