import StreamSynth.Region.Occurrence

/-!
# Sites of names

Every use of a data name in a statement, free or bound, together with the names that constructs
of the statement bind around it. A use is free when its own name is not among them. The walk that
collects free occurrences carries the bound names downwards; here they are read off each use
afterwards, and both agree.
-/

namespace StreamSynth

/-- A use of a name and the names bound around it, the outermost last. -/
structure Site where
  binders : List String
  occurrence : Occurrence

namespace Site

def within (name : String) (site : Site) : Site := { site with binders := site.binders ++ [name] }

def isFree (site : Site) : Bool := site.occurrence.name ∉ site.binders

def isFreeUnder (outer : List String) (site : Site) : Bool :=
  site.occurrence.name ∉ site.binders ++ outer

@[simp] theorem occurrence_within (name : String) (site : Site) :
    (site.within name).occurrence = site.occurrence := rfl

@[simp] theorem isFreeUnder_within (name : String) (outer : List String) (site : Site) :
    (site.within name).isFreeUnder outer = site.isFreeUnder (name :: outer) := by
  simp [isFreeUnder, within]

theorem isFreeUnder_nil : isFreeUnder [] = isFree := by
  funext site
  simp [isFreeUnder, isFree]

end Site

mutual

/-- The uses of names in an expression, in the order of a walk. Expressions bind nothing. -/
def Expr.uses : Expr → List Occurrence
  | .int _ _ | .float _ _ | .string _ => []
  | .var name type => [.var name type]
  | .cast _ arg => arg.uses
  | .binary _ left right => left.uses ++ right.uses
  | .not arg => arg.uses
  | .select condition whenTrue whenFalse => condition.uses ++ whenTrue.uses ++ whenFalse.uses
  | .load name type index => index.uses ++ [.load name type]
  | .call _ _ args => Expr.usesAll args

def Expr.usesAll : List Expr → List Occurrence
  | [] => []
  | arg :: rest => arg.uses ++ Expr.usesAll rest

end

def unboundSites (uses : List Occurrence) : List Site := uses.map (⟨[], ·⟩)

/-- The sites of a statement in the order of a walk. A binder encloses its body only. -/
def Stmt.sites : Stmt → List Site
  | .letIn name value body => unboundSites value.uses ++ body.sites.map (Site.within name)
  | .assert condition _ => unboundSites condition.uses
  | .produce _ body => body.sites
  | .consume _ body => body.sites
  | .loop name min extent body =>
    unboundSites (min.uses ++ extent.uses) ++ body.sites.map (Site.within name)
  | .store name value index =>
    unboundSites (value.uses ++ index.uses ++ [.store name value.type])
  | .provide _ value args => unboundSites (value.uses ++ Expr.usesAll args)
  | .allocate name _ extents body =>
    unboundSites (Expr.usesAll extents) ++ body.sites.map (Site.within name)
  | .free _ => []
  | .realize name _ bounds body =>
    unboundSites (bounds.flatMap fun b => b.min.uses ++ b.extent.uses) ++
      body.sites.map (Site.within name)
  | .block first rest => first.sites ++ rest.sites
  | .ifThen condition thenCase => unboundSites condition.uses ++ thenCase.sites
  | .ifThenElse condition thenCase elseCase =>
    unboundSites condition.uses ++ thenCase.sites ++ elseCase.sites
  | .evaluate value => unboundSites value.uses

def freeUnder (outer : List String) (sites : List Site) : List Occurrence :=
  (sites.filter (Site.isFreeUnder outer)).map Site.occurrence

def Stmt.freeOccurrences (s : Stmt) : List Occurrence :=
  (s.sites.filter Site.isFree).map Site.occurrence

section Agreement

variable (outer : List String)

@[simp] theorem freeUnder_nil : freeUnder outer [] = [] := rfl

@[simp] theorem freeUnder_append (first second : List Site) :
    freeUnder outer (first ++ second) = freeUnder outer first ++ freeUnder outer second := by
  simp [freeUnder]

@[simp] theorem freeUnder_within (name : String) (sites : List Site) :
    freeUnder outer (sites.map (Site.within name)) = freeUnder (name :: outer) sites := by
  simp [freeUnder, List.filter_map, Function.comp_def]

@[simp] theorem freeUnder_unboundSites (uses : List Occurrence) :
    freeUnder outer (unboundSites uses) = uses.filter (·.name ∉ outer) := by
  simp [freeUnder, unboundSites, List.filter_map, Function.comp_def, Site.isFreeUnder]

mutual

theorem Expr.occurrences_eq_filter (e : Expr) :
    e.occurrences outer = e.uses.filter (·.name ∉ outer) := by
  cases e with
  | int value type => rfl
  | float value type => rfl
  | string text => rfl
  | var name type =>
    by_cases bound : name ∈ outer <;> simp [Expr.occurrences, Expr.uses, Occurrence.name, bound]
  | cast type arg => exact Expr.occurrences_eq_filter arg
  | binary op left right =>
    simp only [Expr.occurrences, Expr.uses, List.filter_append,
      Expr.occurrences_eq_filter left, Expr.occurrences_eq_filter right]
  | not arg => exact Expr.occurrences_eq_filter arg
  | select condition whenTrue whenFalse =>
    simp only [Expr.occurrences, Expr.uses, List.filter_append,
      Expr.occurrences_eq_filter condition, Expr.occurrences_eq_filter whenTrue,
      Expr.occurrences_eq_filter whenFalse]
  | load name type index =>
    rw [Expr.occurrences, Expr.uses, List.filter_append, Expr.occurrences_eq_filter index]
    by_cases bound : name ∈ outer <;> simp [Occurrence.name, bound]
  | call name type args => exact Expr.occurrencesAll_eq_filter args

theorem Expr.occurrencesAll_eq_filter (args : List Expr) :
    Expr.occurrencesAll outer args = (Expr.usesAll args).filter (·.name ∉ outer) := by
  cases args with
  | nil => rfl
  | cons arg rest =>
    simp only [Expr.occurrencesAll, Expr.usesAll, List.filter_append,
      Expr.occurrences_eq_filter arg, Expr.occurrencesAll_eq_filter rest]

end

theorem Bound.occurrencesAll_eq_filter (bounds : List Bound) :
    Bound.occurrencesAll outer bounds =
      (bounds.flatMap fun b => b.min.uses ++ b.extent.uses).filter (·.name ∉ outer) := by
  simp only [Bound.occurrencesAll, List.filter_flatMap, List.filter_append,
    Expr.occurrences_eq_filter]

/-- Carrying the bound names downwards finds the sites that are free. -/
theorem Stmt.occurrences_eq_freeUnder (s : Stmt) :
    s.occurrences outer = freeUnder outer s.sites := by
  induction s generalizing outer with
  | letIn name value body bodyAgrees =>
    simp [Stmt.occurrences, Stmt.sites, Expr.occurrences_eq_filter, bodyAgrees]
  | assert condition message => simp [Stmt.occurrences, Stmt.sites, Expr.occurrences_eq_filter]
  | produce name body bodyAgrees => exact bodyAgrees outer
  | consume name body bodyAgrees => exact bodyAgrees outer
  | loop name min extent body bodyAgrees =>
    simp [Stmt.occurrences, Stmt.sites, Expr.occurrences_eq_filter, bodyAgrees]
  | store name value index =>
    by_cases bound : name ∈ outer <;>
      simp [Stmt.occurrences, Stmt.sites, Expr.occurrences_eq_filter, Occurrence.name, bound]
  | provide name value args =>
    simp [Stmt.occurrences, Stmt.sites, Expr.occurrences_eq_filter, Expr.occurrencesAll_eq_filter]
  | allocate name type extents body bodyAgrees =>
    simp [Stmt.occurrences, Stmt.sites, Expr.occurrencesAll_eq_filter, bodyAgrees]
  | free name => rfl
  | realize name type bounds body bodyAgrees =>
    simp only [Stmt.occurrences, Stmt.sites, freeUnder_append, freeUnder_unboundSites,
      freeUnder_within, Bound.occurrencesAll_eq_filter, bodyAgrees]
  | block first rest firstAgrees restAgrees =>
    simp [Stmt.occurrences, Stmt.sites, firstAgrees, restAgrees]
  | ifThen condition thenCase thenAgrees =>
    simp [Stmt.occurrences, Stmt.sites, Expr.occurrences_eq_filter, thenAgrees]
  | ifThenElse condition thenCase elseCase thenAgrees elseAgrees =>
    simp [Stmt.occurrences, Stmt.sites, Expr.occurrences_eq_filter, thenAgrees, elseAgrees]
  | evaluate value => simp [Stmt.occurrences, Stmt.sites, Expr.occurrences_eq_filter]

end Agreement

theorem Stmt.occurrences_eq_freeOccurrences (s : Stmt) :
    s.occurrences [] = s.freeOccurrences := by
  rw [Stmt.occurrences_eq_freeUnder, freeUnder, Site.isFreeUnder_nil, Stmt.freeOccurrences]

end StreamSynth
