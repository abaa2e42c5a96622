import StreamSynth.Proofs.LoweredRegion

/-!
# Regions and the constructs around them

The constructs around a region are read off its place in the program. The innermost one that tells
the size of a buffer or the type of a stencil decides it. The walk that writes the host code carries
an environment instead, and the environment at a place is what the constructs around it tell.
-/

namespace StreamSynth

inductive Construct where
  | define (name : String) (value : Expr)
  | loop (name : String)
  | allocate (name : String) (type : ScalarType) (extents : List Expr)
  | realize (name : String) (type : ScalarType) (bounds : List Bound)

def extentFields (shape : List Expr) : List Expr :=
  (List.range (shape.length / 4)).filterMap fun dimension => shape[4 * dimension + 1]?

inductive BuildsDescriptor : Expr → String → List Expr → Prop
  | mk {type args memory memoryType shape shapeType} :
      args[0]? = some (.var memory memoryType) →
      args[8]? = some (.call "make_struct" shapeType shape) →
      BuildsDescriptor (.call "buffer_init" type args) memory shape

inductive Construct.Sizes (naming : Naming) : Construct → String → List Expr → Prop
  | allocate {name type extents} : Sizes naming (.allocate name type extents) name extents
  | define {name value memory shape} : BuildsDescriptor value memory shape →
      Sizes naming (.define name value) (naming.bufferOf memory) (extentFields shape)

inductive Innermost {α : Type} (Tells : Construct → α → Prop) : List Construct → Option α → Prop
  | nowhere : Innermost Tells [] none
  | here {c around a} : Tells c a → Innermost Tells (c :: around) (some a)
  | further {c around told} : (∀ a, ¬ Tells c a) → Innermost Tells around told →
      Innermost Tells (c :: around) told

theorem Innermost.unique {α : Type} {Tells : Construct → α → Prop}
    (functional : ∀ c a b, Tells c a → Tells c b → a = b) {around : List Construct}
    {one other : Option α} (first : Innermost Tells around one)
    (second : Innermost Tells around other) : one = other := by
  induction first with
  | nowhere =>
    cases second
    rfl
  | here tells =>
    cases second with
    | here tellsToo => rw [functional _ _ _ tells tellsToo]
    | further silent _ => exact absurd tells (silent _)
  | further silent _ inductionHypothesis =>
    cases second with
    | here tells => exact absurd tells (silent _)
    | further _ second => exact inductionHypothesis second

/-- A region with the constructs around it, the innermost first. -/
structure RegionSite where
  around : List Construct
  region : Region

/-- The outermost regions of a statement in program order, each with what encloses it. `around`
encloses the statement itself. -/
def Stmt.regionSites (start : String) (around : List Construct) : Stmt → List RegionSite
  | .produce name body =>
    if start.toList.isPrefixOf name.toList then [⟨around, name, body⟩]
    else body.regionSites start around
  | .letIn name value body => body.regionSites start (.define name value :: around)
  | .loop name _ _ body => body.regionSites start (.loop name :: around)
  | .allocate name type extents body =>
    body.regionSites start (.allocate name type extents :: around)
  | .realize name type bounds body => body.regionSites start (.realize name type bounds :: around)
  | .consume _ body => body.regionSites start around
  | .block first rest => first.regionSites start around ++ rest.regionSites start around
  | .ifThen _ thenCase => thenCase.regionSites start around
  | .ifThenElse _ thenCase elseCase =>
    thenCase.regionSites start around ++ elseCase.regionSites start around
  | .assert _ _ | .store _ _ _ | .provide _ _ _ | .free _ | .evaluate _ => []

theorem Stmt.regionSites_region (start : String) (around : List Construct) (s : Stmt) :
    (s.regionSites start around).map RegionSite.region = s.outermostRegions start := by
  induction s generalizing around with
  | produce name body bodySites =>
    rw [regionSites, outermostRegions]
    split
    · rfl
    · exact bodySites around
  | letIn _ _ _ bodySites => exact bodySites _
  | allocate _ _ _ _ bodySites => exact bodySites _
  | realize _ _ _ _ bodySites => exact bodySites _
  | consume _ _ bodySites => exact bodySites _
  | loop _ _ _ _ bodySites => exact bodySites _
  | ifThen _ _ thenSites => exact thenSites _
  | block _ _ firstSites restSites =>
    rw [regionSites, outermostRegions, List.map_append, firstSites, restSites]
  | ifThenElse _ _ _ thenSites elseSites =>
    rw [regionSites, outermostRegions, List.map_append, thenSites, elseSites]
  | _ => rfl

theorem shapeExtents_eq_extentFields (shape : List Expr) :
    BufferSizes.shapeExtents shape = extentFields shape := by
  fun_induction BufferSizes.shapeExtents shape with
  | case1 a extent b c rest inductionHypothesis =>
    have more : (a :: extent :: b :: c :: rest).length / 4 = rest.length / 4 + 1 := by
      simp only [List.length_cons]
      omega
    rw [extentFields, more, List.range_succ_eq_map, List.filterMap_cons, List.filterMap_map,
      inductionHypothesis]
    rfl
  | case2 shape short =>
    have few : shape.length < 4 := by
      rcases shape with _ | ⟨a, _ | ⟨b, _ | ⟨c, _ | ⟨d, rest⟩⟩⟩⟩
      case cons.cons.cons.cons => exact absurd rfl (short a b c d rest)
      all_goals simp
    simp [extentFields, Nat.div_eq_of_lt few]

theorem Scope.get?_push {α : Type} (scope : Scope α) (name other : String) (value : α) :
    (scope.push name value).get? other = if name = other then some value else scope.get? other := by
  by_cases same : name = other
  · simp [Scope.get?, Scope.push, same]
  · have different : (other == name) = false := by simpa using fun equal => same equal.symm
    simp [Scope.get?, Scope.push, List.lookup_cons, same, different]

theorem descriptorShape?_eq_some_iff {value : Expr} {memory : String} {shape : List Expr} :
    Host.descriptorShape? value = some (memory, shape) ↔ BuildsDescriptor value memory shape := by
  constructor
  · intro isDescriptor
    simp only [Host.descriptorShape?, Option.bind_eq_bind, Option.bind_eq_some_iff] at isDescriptor
    obtain ⟨args, isCall, isDescriptor⟩ := isDescriptor
    obtain ⟨type, rfl⟩ := Expr.callTo?_eq_some_iff.mp isCall
    split at isDescriptor
    · next memoryType isFirst =>
      simp only [Option.bind_eq_some_iff] at isDescriptor
      obtain ⟨last, isLast, fields, areFields, ⟨⟩⟩ := isDescriptor
      obtain ⟨shapeType, rfl⟩ := Expr.callTo?_eq_some_iff.mp areFields
      rw [List.head?_eq_getElem?] at isFirst
      exact .mk isFirst isLast
    · cases isDescriptor
  · rintro ⟨first, last⟩
    rw [← List.head?_eq_getElem?] at first
    simp [Host.descriptorShape?, Expr.callTo?, first, last]

theorem BufferSizes.recordAllocation_ok {sizes after : BufferSizes} {name : String}
    {extents : List Expr} (recorded : sizes.recordAllocation name extents = .ok after) :
    ∃ size, Expr.product extents = some size ∧ after = sizes.push name size := by
  unfold recordAllocation at recorded
  split at recorded
  · next size isSize =>
    cases recorded
    exact ⟨size, isSize, rfl⟩
  · cases recorded

theorem BufferSizes.recordShape_ok {sizes after : BufferSizes} {name : String} {shape : List Expr}
    (recorded : sizes.recordShape name shape = .ok after) :
    ∃ size, Expr.product (extentFields shape) = some size ∧ after = sizes.push name size := by
  unfold recordShape at recorded
  split at recorded
  · cases recorded
  · rw [shapeExtents_eq_extentFields] at recorded
    exact recordAllocation_ok recorded

theorem Construct.Sizes.unique {naming : Naming} {c : Construct} {name : String}
    {extents other : List Expr} (sizes : c.Sizes naming name extents)
    (sizesToo : c.Sizes naming name other) : extents = other := by
  cases sizes with
  | allocate =>
    cases sizesToo
    rfl
  | define builds =>
    generalize isName : naming.bufferOf _ = name at sizesToo
    cases sizesToo with
    | define buildsToo =>
      have same := descriptorShape?_eq_some_iff.mpr builds
      rw [descriptorShape?_eq_some_iff.mpr buildsToo] at same
      cases same
      rfl

/-- The size is the product of the extents that the innermost construct gives to the buffer, and
there is none without such a construct. -/
def SizedBy (naming : Naming) (around : List Construct) (name : String) (size : Option Expr) :
    Prop :=
  ∃ extents, Innermost (Construct.Sizes naming · name) around extents ∧
    extents.map Expr.product = size.map some

/-- The type is that of the innermost realization of the name: a stream if the name says so, and
otherwise a plain stencil. -/
def RealizedBy (config : Config) (around : List Construct) (name : String)
    (stencil : StencilType) : Prop :=
  ∃ type bounds,
    Innermost (fun c (told : ScalarType × List Bound) => c = .realize name told.1 told.2) around
      (some (type, bounds)) ∧
    if config.naming.isStream name then
      StencilType.ofBounds .streaming type bounds config.streamDepth = .ok stencil
    else config.naming.isStencil name = true ∧
      StencilType.ofBounds .unpacked type bounds 0 = .ok stencil

section Told

variable {naming : Naming} {config : Config} {around : List Construct} {name : String}
  {c : Construct}

theorem SizedBy.skip {size : Option Expr} (silent : ∀ extents, ¬ c.Sizes naming name extents)
    (sized : SizedBy naming around name size) : SizedBy naming (c :: around) name size := by
  obtain ⟨extents, innermost, isSize⟩ := sized
  exact ⟨extents, innermost.further silent, isSize⟩

theorem RealizedBy.skip {stencil : StencilType}
    (different : ∀ type bounds, c ≠ .realize name type bounds)
    (realized : RealizedBy config around name stencil) :
    RealizedBy config (c :: around) name stencil := by
  obtain ⟨type, bounds, innermost, built⟩ := realized
  exact ⟨type, bounds, innermost.further fun told => different told.1 told.2, built⟩

theorem SizedBy.unique {size other : Option Expr} (sized : SizedBy naming around name size)
    (sizedToo : SizedBy naming around name other) : size = other := by
  obtain ⟨extents, innermost, isSize⟩ := sized
  obtain ⟨extentsToo, innermostToo, isOther⟩ := sizedToo
  obtain rfl : extents = extentsToo := by
    apply innermost.unique _ innermostToo
    exact fun _ _ _ => Construct.Sizes.unique
  rw [isSize] at isOther
  exact Option.map_injective (fun _ _ => Option.some.inj) isOther

theorem RealizedBy.unique {stencil other : StencilType}
    (realized : RealizedBy config around name stencil)
    (realizedToo : RealizedBy config around name other) : stencil = other := by
  obtain ⟨type, bounds, innermost, built⟩ := realized
  obtain ⟨typeToo, boundsToo, innermostToo, builtToo⟩ := realizedToo
  have same : some (type, bounds) = some (typeToo, boundsToo) := by
    apply innermost.unique _ innermostToo
    rintro _ ⟨_, _⟩ ⟨_, _⟩ rfl ⟨⟩
    rfl
  cases same
  split at built
  · rw [if_pos ‹_›, built] at builtToo
    cases builtToo
    rfl
  · rw [if_neg ‹_›, built.2] at builtToo
    cases builtToo.2
    rfl

end Told

structure Env.OfConstructs (config : Config) (around : List Construct) (env : Env) : Prop where
  sizes : ∀ name, SizedBy config.naming around name (env.sizes.get? name)
  stencils : ∀ name stencil, env.stencils.get? name = some stencil →
    RealizedBy config around name stencil

namespace Env.OfConstructs

variable {config : Config} {around : List Construct} {env inner : Env}

theorem empty (config : Config) : Env.empty.OfConstructs config [] where
  sizes _ := ⟨none, .nowhere, rfl⟩
  stencils _ _ known := by cases known

theorem pushSize (ofConstructs : env.OfConstructs config around) {c : Construct} {buffer : String}
    {extents : List Expr} {size : Expr} (sizes : c.Sizes config.naming buffer extents)
    (only : ∀ name extents, c.Sizes config.naming name extents → name = buffer)
    (isSize : Expr.product extents = some size)
    (noRealize : ∀ name type bounds, c ≠ .realize name type bounds) :
    { env with sizes := env.sizes.push buffer size }.OfConstructs config (c :: around) where
  sizes name := by
    by_cases same : buffer = name
    · subst same
      rw [Scope.get?_push, if_pos rfl]
      exact ⟨some extents, .here sizes, by simp [isSize]⟩
    · rw [Scope.get?_push, if_neg same]
      exact (ofConstructs.sizes name).skip fun _ tells => same (only name _ tells).symm
  stencils name stencil known :=
    (ofConstructs.stencils name stencil known).skip (noRealize name)

theorem loop (ofConstructs : env.OfConstructs config around) (name : String) :
    env.OfConstructs config (.loop name :: around) where
  sizes other := by
    refine (ofConstructs.sizes other).skip ?_
    rintro _ ⟨⟩
  stencils other stencil known := by
    refine (ofConstructs.stencils other stencil known).skip ?_
    rintro _ _ ⟨⟩

theorem allocate (ofConstructs : env.OfConstructs config around) {name : String}
    {extents : List Expr} (known : Host.allocateEnv env name extents = .ok inner)
    (type : ScalarType) : inner.OfConstructs config (.allocate name type extents :: around) := by
  cases recorded : env.sizes.recordAllocation name extents with
  | error e =>
    rw [Host.allocateEnv, recorded] at known
    cases known
  | ok sizes =>
    rw [Host.allocateEnv, recorded] at known
    cases known
    obtain ⟨size, isSize, rfl⟩ := BufferSizes.recordAllocation_ok recorded
    refine ofConstructs.pushSize .allocate ?_ isSize ?_
    · rintro _ _ ⟨⟩
      rfl
    · rintro _ _ _ ⟨⟩

theorem define (ofConstructs : env.OfConstructs config around) {value : Expr}
    (known : Host.letEnv config.naming env value = .ok inner) (name : String) :
    inner.OfConstructs config (.define name value :: around) := by
  cases isDescriptor : Host.descriptorShape? value with
  | none =>
    rw [Host.letEnv, isDescriptor] at known
    cases known
    constructor
    · intro name
      refine (ofConstructs.sizes name).skip ?_
      rintro _ (_ | builds)
      rw [descriptorShape?_eq_some_iff.mpr builds] at isDescriptor
      cases isDescriptor
    · intro name stencil isKnown
      refine (ofConstructs.stencils name stencil isKnown).skip ?_
      rintro _ _ ⟨⟩
  | some described =>
    obtain ⟨memory, shape⟩ := described
    rw [Host.letEnv, isDescriptor] at known
    simp only at known
    cases recorded : env.sizes.recordShape (config.naming.bufferOf memory) shape with
    | error e =>
      rw [recorded] at known
      cases known
    | ok sizes =>
      rw [recorded] at known
      cases known
      obtain ⟨size, isSize, rfl⟩ := BufferSizes.recordShape_ok recorded
      have builds := descriptorShape?_eq_some_iff.mp isDescriptor
      refine ofConstructs.pushSize (.define builds) ?_ isSize ?_
      · rintro _ _ (_ | others)
        rw [descriptorShape?_eq_some_iff.mpr others] at isDescriptor
        cases isDescriptor
        rfl
      · rintro _ _ _ ⟨⟩

theorem realize (ofConstructs : env.OfConstructs config around) {name : String}
    {type : ScalarType} {bounds : List Bound} {stencil : StencilType}
    (built : if config.naming.isStream name then
        StencilType.ofBounds .streaming type bounds config.streamDepth = .ok stencil
      else config.naming.isStencil name = true ∧
        StencilType.ofBounds .unpacked type bounds 0 = .ok stencil) :
    { env with stencils := env.stencils.push name stencil }.OfConstructs config
      (.realize name type bounds :: around) where
  sizes other := by
    refine (ofConstructs.sizes other).skip ?_
    rintro _ ⟨⟩
  stencils other found known := by
    by_cases same : name = other
    · subst same
      rw [Scope.get?_push, if_pos rfl] at known
      cases known
      exact ⟨type, bounds, .here rfl, built⟩
    · rw [Scope.get?_push, if_neg same] at known
      refine (ofConstructs.stencils other found known).skip ?_
      rintro _ _ ⟨⟩
      exact same rfl

theorem realizeArray (ofConstructs : env.OfConstructs config around) {name : String}
    (notStream : config.naming.isStream name = false)
    (notStencil : config.naming.isStencil name = false) (type : ScalarType) (bounds : List Bound) :
    env.OfConstructs config (.realize name type bounds :: around) where
  sizes other := by
    refine (ofConstructs.sizes other).skip ?_
    rintro _ ⟨⟩
  stencils other found known := by
    have realized := ofConstructs.stencils other found known
    refine realized.skip ?_
    rintro _ _ ⟨⟩
    obtain ⟨_, _, _, built⟩ := realized
    rw [notStream, notStencil] at built
    cases built.1

end Env.OfConstructs

end StreamSynth
