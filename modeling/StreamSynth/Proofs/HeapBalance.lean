import StreamSynth.Proofs.HeapTrace
import StreamSynth.Proofs.RegionSite

/-!
# Allocated and freed arrays balance

Among the lines of a statement each name is freed at most as often as it was allocated before, and
what is allocated and not freed is what the writer holds as live. The live arrays are one list for
all names and places, so whether a free is written does not depend on the allocations around it.
-/

namespace StreamSynth

namespace HeapSite

variable {heap : List String} {sites : List HeapSite} {site : HeapSite} {name : String}

def news (name : String) (sites : List HeapSite) : Nat := (sites.map step).count (.allocate name)

def deletes (name : String) (sites : List HeapSite) : Nat := (sites.map step).count (.free name)

@[simp] theorem news_append (first rest : List HeapSite) :
    news name (first ++ rest) = news name first + news name rest := by
  simp [news]

@[simp] theorem deletes_append (first rest : List HeapSite) :
    deletes name (first ++ rest) = deletes name first + deletes name rest := by
  simp [deletes]

/-- The ledger at one place: what was live or is allocated is live behind it or freed by it. -/
theorem count_apply (heap : List String) (site : HeapSite) (name : String) :
    (site.step.apply heap).count name + deletes name (written heap [site]) =
      heap.count name + news name (written heap [site]) := by
  obtain ⟨step, scope⟩ := site
  cases step with
  | allocate other =>
    have isWritten : written heap [⟨.allocate other, scope⟩] = [⟨.allocate other, scope⟩] := rfl
    simp [isWritten, HeapStep.apply, news, deletes, List.count_cons]
  | free other =>
    simp only [written, HeapStep.isWritten, decide_eq_true_eq, HeapStep.apply]
    split
    · next isLive =>
      have positive := List.count_pos_iff.mpr isLive
      by_cases same : other = name
      · subst same
        have freed : deletes other [⟨.free other, scope⟩] = 1 := by simp [deletes]
        have notNew : news other [⟨.free other, scope⟩] = 0 := by simp [news]
        rw [freed, notNew, List.count_erase_self]
        omega
      · simp [news, deletes, List.count_erase, same]
    · next notLive => simp [news, deletes, List.erase_of_not_mem notLive]

theorem count_live (heap : List String) (sites : List HeapSite) (name : String) :
    (live heap sites).count name + deletes name (written heap sites) =
      heap.count name + news name (written heap sites) := by
  induction sites generalizing heap with
  | nil => rfl
  | cons site sites inductionHypothesis =>
    have here := count_apply heap site name
    have later := inductionHypothesis (site.step.apply heap)
    have behind : live heap (site :: sites) = live (site.step.apply heap) sites := rfl
    have splits : written heap (site :: sites) =
        written heap [site] ++ written (site.step.apply heap) sites :=
      written_append heap [site] sites
    rw [behind, splits, deletes_append, news_append]
    omega

/-- From no live array, a name is live as long as it was allocated more often than freed. -/
theorem mem_live_iff :
    name ∈ live [] sites ↔ deletes name (written [] sites) < news name (written [] sites) := by
  have ledger := count_live [] sites name
  rw [List.count_nil] at ledger
  rw [← List.count_pos_iff]
  omega

theorem deletes_le_news (sites : List HeapSite) (name : String) :
    deletes name (written [] sites) ≤ news name (written [] sites) := by
  have ledger := count_live [] sites name
  rw [List.count_nil] at ledger
  omega

/-- The first of the written places are those that the first places leave. -/
theorem exists_of_prefix_written {start : List HeapSite} (isStart : start <+: written heap sites) :
    ∃ done, done <+: sites ∧ start = written heap done := by
  induction sites generalizing heap start with
  | nil => exact ⟨[], List.nil_prefix, List.prefix_nil.mp isStart⟩
  | cons site sites inductionHypothesis =>
    rw [written] at isStart
    split at isStart
    · next isWritten =>
      rcases List.prefix_cons_iff.mp isStart with rfl | ⟨rest, rfl, isRest⟩
      · exact ⟨[], List.nil_prefix, rfl⟩
      · obtain ⟨done, isFirst, rfl⟩ := inductionHypothesis isRest
        refine ⟨site :: done, List.cons_prefix_cons.mpr ⟨rfl, isFirst⟩, ?_⟩
        rw [written, if_pos isWritten]
    · next notWritten =>
      obtain ⟨done, isFirst, rfl⟩ := inductionHypothesis isStart
      refine ⟨site :: done, List.cons_prefix_cons.mpr ⟨rfl, isFirst⟩, ?_⟩
      rw [written, if_neg notWritten]

/-- A place leaves a line by what is live behind the places before it. -/
theorem mem_written_iff : site ∈ written heap sites ↔
    ∃ earlier later, sites = earlier ++ site :: later ∧
      site.step.isWritten (live heap earlier) = true := by
  constructor
  · intro membership
    induction sites generalizing heap with
    | nil => cases membership
    | cons first sites inductionHypothesis =>
      have inRest (membership : site ∈ written (first.step.apply heap) sites) :
          ∃ earlier later, first :: sites = earlier ++ site :: later ∧
            site.step.isWritten (live heap earlier) = true := by
        obtain ⟨earlier, later, rfl, isWritten⟩ := inductionHypothesis membership
        exact ⟨first :: earlier, later, rfl, isWritten⟩
      rw [written] at membership
      split at membership
      · next isWritten =>
        rcases List.mem_cons.mp membership with rfl | membership
        · exact ⟨[], sites, rfl, isWritten⟩
        · exact inRest membership
      · exact inRest membership
  · rintro ⟨earlier, later, rfl, isWritten⟩
    rw [written_append, written, if_pos isWritten]
    exact List.mem_append_right _ List.mem_cons_self

/-- A free that leaves a line is behind the places that leave its name live. -/
theorem mem_live_of_mem_written (membership : site ∈ written heap sites)
    (isFree : site.step = .free name) :
    ∃ earlier later, sites = earlier ++ site :: later ∧ name ∈ live heap earlier := by
  obtain ⟨earlier, later, isSplit, isWritten⟩ := mem_written_iff.mp membership
  rw [isFree] at isWritten
  exact ⟨earlier, later, isSplit, of_decide_eq_true isWritten⟩

/-- What is live was live before or is allocated by one of the places. -/
theorem mem_or_allocate_of_mem_live (isLive : name ∈ live heap sites) :
    name ∈ heap ∨ ∃ site ∈ sites, site.step = .allocate name := by
  induction sites generalizing heap with
  | nil => exact .inl isLive
  | cons first sites inductionHypothesis =>
    rcases @inductionHypothesis (first.step.apply heap) isLive with isLive | ⟨site, later, isStep⟩
    · cases isStep : first.step with
      | allocate other =>
        rw [isStep, HeapStep.apply, List.mem_cons] at isLive
        rcases isLive with rfl | isLive
        · exact .inr ⟨first, List.mem_cons_self, isStep⟩
        · exact .inl isLive
      | free other =>
        rw [isStep, HeapStep.apply] at isLive
        exact .inl (List.mem_of_mem_erase isLive)
    · exact .inr ⟨site, List.mem_cons_of_mem _ later, isStep⟩

end HeapSite

namespace Emitter

open HeapSite

variable {σ : Type} {e : Emitter σ} {writer : σ → Writer} {s : Stmt} {scope : Scope Storage}
  {site : HeapSite} {name : String}

/-- The arrays that a statement allocates outside its regions, and where they live. -/
def allocations (e : Emitter σ) : Stmt → List (String × Storage)
  | .allocate name _ extents body => (name, .ofExtents extents) :: e.allocations body
  | .produce name body => if (e.region? name body).isSome then [] else e.allocations body
  | .letIn _ _ body | .consume _ body | .loop _ _ _ body | .realize _ _ _ body =>
    e.allocations body
  | .block first rest => e.allocations first ++ e.allocations rest
  | .ifThen _ thenCase => e.allocations thenCase
  | .ifThenElse _ thenCase elseCase => e.allocations thenCase ++ e.allocations elseCase
  | .assert _ _ | .store _ _ _ | .provide _ _ _ | .free _ | .evaluate _ => []

structure Placed (e : Emitter σ) (arrays : List (String × Storage)) (scope : Scope Storage)
    (site : HeapSite) : Prop where
  allocates : ∀ name, site.step = .allocate name → (name, .heap) ∈ arrays
  notStream : ∀ name, site.step = .free name → e.naming.isStream name = false
  encloses : ∀ name storage, site.scope.get? name = some storage →
    (name, storage) ∈ arrays ∨ scope.get? name = some storage

theorem Placed.mono {arrays more : List (String × Storage)} (placed : e.Placed arrays scope site)
    (contains : arrays ⊆ more) : e.Placed more scope site where
  allocates name isStep := contains (placed.allocates name isStep)
  notStream := placed.notStream
  encloses name storage isBound := (placed.encloses name storage isBound).imp_left (contains ·)

theorem Placed.allocation {arrays : List (String × Storage)} {storage : Storage}
    (placed : e.Placed arrays (scope.push name storage) site) :
    e.Placed ((name, storage) :: arrays) scope site where
  allocates other isStep := List.mem_cons_of_mem _ (placed.allocates other isStep)
  notStream := placed.notStream
  encloses other found isBound := by
    rcases placed.encloses other found isBound with inBody | isOuter
    · exact .inl (List.mem_cons_of_mem _ inBody)
    · rw [Scope.get?_push] at isOuter
      split at isOuter
      · next same =>
        cases isOuter
        exact .inl (same ▸ List.mem_cons_self)
      · exact .inr isOuter

theorem placed_of_mem_heapSites (membership : site ∈ e.heapSites s scope) :
    e.Placed (e.allocations s) scope site := by
  induction s generalizing scope with
  | allocate name type extents body bodyPlaced =>
    rw [heapSites] at membership
    rw [allocations]
    split at membership
    · next isStack =>
      rw [isStack]
      exact (bodyPlaced membership).allocation
    · next isHeap =>
      rw [isHeap]
      rcases List.mem_cons.mp membership with rfl | membership
      · refine ⟨?_, fun _ isStep => (by cases isStep), fun _ _ => .inr⟩
        rintro _ ⟨⟩
        exact List.mem_cons_self
      · exact (bodyPlaced membership).allocation
  | free name =>
    rw [heapSites] at membership
    split at membership
    · cases membership
    · next notStream =>
      cases List.mem_singleton.mp membership
      refine ⟨fun _ isStep => (by cases isStep), ?_, fun _ _ => .inr⟩
      rintro _ ⟨⟩
      exact Bool.eq_false_iff.mpr notStream
  | produce name body bodyPlaced =>
    rw [heapSites] at membership
    rw [allocations]
    split at membership
    · cases membership
    · next noRegion =>
      rw [if_neg noRegion]
      exact bodyPlaced membership
  | letIn name value body bodyPlaced => exact bodyPlaced membership
  | consume name body bodyPlaced => exact bodyPlaced membership
  | loop name min extent body bodyPlaced => exact bodyPlaced membership
  | realize name type bounds body bodyPlaced => exact bodyPlaced membership
  | ifThen condition thenCase thenPlaced => exact thenPlaced membership
  | block first rest firstPlaced restPlaced =>
    rcases List.mem_append.mp membership with inFirst | inRest
    · exact (firstPlaced inFirst).mono (List.subset_append_left _ _)
    · exact (restPlaced inRest).mono (List.subset_append_right _ _)
  | ifThenElse condition thenCase elseCase thenPlaced elsePlaced =>
    rcases List.mem_append.mp membership with inThen | inElse
    · exact (thenPlaced inThen).mono (List.subset_append_left _ _)
    · exact (elsePlaced inElse).mono (List.subset_append_right _ _)
  | assert condition message => cases membership
  | store name value index => cases membership
  | provide name value args => cases membership
  | evaluate value => cases membership

/-- How the writing of a statement ends that starts with no live array. Its lines show the places it
came by, which are all of them unless it stopped early. -/
inductive EndsWith (e : Emitter σ) (writer : σ → Writer) (s : Stmt)
    (property : List HeapSite → Prop) (before : Writer) : EStateM.Result Stop σ Unit → Prop
  | ok {after} :
      before.AddsSteps ((written [] (e.heapSites s .empty)).map HeapSite.step) (writer after) →
      (∀ name, (writer after).heap.count name + deletes name (written [] (e.heapSites s .empty)) =
        news name (written [] (e.heapSites s .empty))) →
      property (e.heapSites s .empty) →
      EndsWith e writer s property before (.ok () after)
  | error {done stop after} :
      done <+: e.heapSites s .empty →
      before.AddsSteps ((written [] done).map HeapSite.step) (writer after) →
      property done →
      EndsWith e writer s property before (.error stop after)

theorem KeepsHeap.endsWith (keeps : e.KeepsHeap writer) {property : List HeapSite → Prop}
    (holds : ∀ done, done <+: e.heapSites s .empty → property done) (env : Env) {state : σ}
    (noArray : (writer state).heap = []) :
    e.EndsWith writer s property (writer state) (e.emit s env state) := by
  have ends := keeps.traced_emit s env .empty state state rfl
  generalize e.emit s env state = result at ends ⊢
  cases ends with
  | own isOwn => cases isOwn
  | ok passed =>
    obtain ⟨-, shows, heap_eq⟩ := passed
    rw [Writer.Shows, noArray] at shows
    refine .ok shows (fun name => ?_) (holds _ List.prefix_rfl)
    rw [heap_eq, noArray, count_live, List.count_nil, Nat.zero_add]
  | error stopped =>
    obtain ⟨done, isFirst, shows⟩ := stopped
    rw [Writer.Shows, noArray] at shows
    exact .error isFirst shows (holds _ isFirst)

/-- A free is written only for a name that the statement allocates on the heap. -/
theorem allocations_of_mem_written {done : List HeapSite} (isFirst : done <+: e.heapSites s .empty)
    (membership : site ∈ written [] done) (isFree : site.step = .free name) :
    (name, .heap) ∈ e.allocations s := by
  obtain ⟨earlier, later, rfl, isLive⟩ := mem_live_of_mem_written membership isFree
  rcases mem_or_allocate_of_mem_live isLive with noArray | ⟨allocation, inEarlier, isStep⟩
  · cases noArray
  · have inSites := isFirst.subset (List.mem_append_left _ inEarlier)
    exact (placed_of_mem_heapSites inSites).allocates name isStep

structure Balanced (e : Emitter σ) (s : Stmt) (done : List HeapSite) : Prop where
  covered : ∀ start, start <+: written [] done → ∀ name, deletes name start ≤ news name start
  notStream : ∀ name, 0 < deletes name (written [] done) → e.naming.isStream name = false
  onHeap : ∀ name, 0 < deletes name (written [] done) → (name, .heap) ∈ e.allocations s

theorem balanced_of_first {done : List HeapSite} (isFirst : done <+: e.heapSites s .empty) :
    e.Balanced s done := by
  have freed {name : String} (isFreed : 0 < deletes name (written [] done)) :
      ∃ site ∈ written [] done, site.step = .free name :=
    List.mem_map.mp (List.count_pos_iff.mp isFreed)
  constructor
  · intro start isStart name
    obtain ⟨earlier, _, rfl⟩ := exists_of_prefix_written isStart
    exact deletes_le_news earlier name
  · intro name isFreed
    obtain ⟨site, membership, isFree⟩ := freed isFreed
    obtain ⟨earlier, later, rfl, _⟩ := mem_live_of_mem_written membership isFree
    have inSites := isFirst.subset (List.mem_append_right earlier List.mem_cons_self)
    exact (placed_of_mem_heapSites inSites).notStream name isFree
  · intro name isFreed
    obtain ⟨site, membership, isFree⟩ := freed isFreed
    exact allocations_of_mem_written isFirst membership isFree

end Emitter

/-- Among the lines of a statement a name is freed at most as often as it was allocated before. A
stream or an array of constant size is never freed, and what is not freed stays live. -/
theorem heap_lines_balanced (s : Stmt) (env : Env) :
    (∀ naming streamDepth (w : Writer), w.heap = [] →
      (Emitter.plain naming streamDepth).EndsWith id s
        ((Emitter.plain naming streamDepth).Balanced s) w
        ((Emitter.plain naming streamDepth).emit s env w)) ∧
    ∀ config (host : Host), host.writer.heap = [] →
      (Host.emitter config).EndsWith Host.writer s ((Host.emitter config).Balanced s) host.writer
        ((Host.emitter config).emit s env host) :=
  ⟨fun naming streamDepth _ noArray =>
    (Emitter.keepsHeap_plain naming streamDepth).endsWith
      (fun _ => Emitter.balanced_of_first) env noArray,
  fun config _ noArray => (Host.keepsHeap_emitter config).endsWith
    (fun _ => Emitter.balanced_of_first) env noArray⟩

def freeInBoth : Stmt :=
  .allocate "tmp" .default [.var "n" .default]
    (.ifThenElse (.var "c" .bool) (.free "tmp") (.block (.free "tmp") (.free "in.stream")))

theorem heap_lines_balanced_freeInBoth :
    (∃ after, (Emitter.plain .standard 1).emit freeInBoth .empty .empty = .ok () after ∧
      after.lines.toList.map Line.text =
        ["int32_t *tmp = new int32_t[n];", "if (c) \x7b", "delete[] tmp;", "\x7d else \x7b",
          "\x7d"] ∧
      (Emitter.plain .standard 1).EndsWith id freeInBoth
        ((Emitter.plain .standard 1).Balanced freeInBoth) .empty (.ok () after)) ∧
    ∃ after, (Host.emitter .standard).emit freeInBoth .empty (.start .standard) = .ok () after ∧
      (Host.emitter .standard).EndsWith Host.writer freeInBoth
        ((Host.emitter .standard).Balanced freeInBoth) (Host.start .standard).writer
        (.ok () after) :=
  ⟨⟨_, rfl, rfl, (heap_lines_balanced freeInBoth .empty).1 .standard 1 .empty rfl⟩,
    _, rfl, (heap_lines_balanced freeInBoth .empty).2 .standard (.start .standard) rfl⟩

/-- A free stands inside an allocation of its name, and the innermost one is on the heap. -/
def HeapSite.InScope (site : HeapSite) : Prop :=
  ∀ name, site.step = .free name → site.scope.get? name = some .heap

namespace Emitter

open HeapSite

variable {σ : Type} {e : Emitter σ} {s : Stmt}

structure ScopesFrees (e : Emitter σ) (s : Stmt) (done : List HeapSite) : Prop where
  /-- Exactly if a free that is not in scope comes where all arrays of its name are freed. -/
  inScope_iff : (∀ site ∈ written [] done, site.InScope) ↔
    ∀ earlier site later name, done = earlier ++ site :: later → site.step = .free name →
      site.scope.get? name ≠ some .heap →
      deletes name (written [] earlier) = news name (written [] earlier)
  /-- In particular if each name has one kind of array and is freed inside an allocation of it. -/
  inScope_of_apart :
    (∀ name, (name, .heap) ∈ e.allocations s → (name, .stack) ∉ e.allocations s) →
    (∀ site ∈ e.heapSites s .empty, ∀ name, site.step = .free name →
      site.scope.contains name = true) →
    ∀ site ∈ written [] done, site.InScope

theorem scopesFrees_of_first {done : List HeapSite} (isFirst : done <+: e.heapSites s .empty) :
    e.ScopesFrees s done := by
  refine ⟨⟨?_, ?_⟩, ?_⟩
  · rintro inScope earlier site later name rfl isFree notHeap
    have notLive : name ∉ live [] earlier := by
      intro isLive
      have isWritten : site.step.isWritten (live [] earlier) = true := by
        rw [isFree]
        exact decide_eq_true isLive
      have membership := mem_written_iff.mpr ⟨earlier, later, rfl, isWritten⟩
      exact notHeap (inScope site membership name isFree)
    rw [mem_live_iff, Nat.not_lt] at notLive
    exact Nat.le_antisymm (deletes_le_news earlier name) notLive
  · intro balanced site membership name isFree
    obtain ⟨earlier, later, isSplit, isLive⟩ := mem_live_of_mem_written membership isFree
    refine Decidable.byContradiction fun notHeap => ?_
    have isLeft := mem_live_iff.mp isLive
    exact absurd (balanced earlier site later name isSplit isFree notHeap) (Nat.ne_of_lt isLeft)
  · intro apart inside site membership name isFree
    have onHeap := allocations_of_mem_written isFirst membership isFree
    obtain ⟨earlier, later, rfl, _⟩ := mem_live_of_mem_written membership isFree
    have inSites := isFirst.subset (List.mem_append_right earlier List.mem_cons_self)
    obtain ⟨storage, isBound⟩ := Option.isSome_iff_exists.mp (inside site inSites name isFree)
    rcases (placed_of_mem_heapSites inSites).encloses name storage isBound with isArray | isOuter
    · cases storage with
      | heap => exact isBound
      | stack => exact absurd isArray (apart name onHeap)
    · cases isOuter

end Emitter

/-- Frees are written by name, not by scope: those in the lines of a statement are in scope exactly
if every free that is not in scope comes where all arrays of its name are freed. -/
theorem written_frees_in_scope (s : Stmt) (env : Env) :
    (∀ naming streamDepth (w : Writer), w.heap = [] →
      (Emitter.plain naming streamDepth).EndsWith id s
        ((Emitter.plain naming streamDepth).ScopesFrees s) w
        ((Emitter.plain naming streamDepth).emit s env w)) ∧
    ∀ config (host : Host), host.writer.heap = [] →
      (Host.emitter config).EndsWith Host.writer s ((Host.emitter config).ScopesFrees s) host.writer
        ((Host.emitter config).emit s env host) :=
  ⟨fun naming streamDepth _ noArray =>
    (Emitter.keepsHeap_plain naming streamDepth).endsWith
      (fun _ => Emitter.scopesFrees_of_first) env noArray,
  fun config _ noArray => (Host.keepsHeap_emitter config).endsWith
    (fun _ => Emitter.scopesFrees_of_first) env noArray⟩

def freeNested : Stmt :=
  .allocate "tmp" .default [.var "n" .default]
    (.block (.allocate "tmp" .default [.var "m" .default] (.free "tmp")) (.free "tmp"))

theorem written_frees_in_scope_freeNested :
    ∃ after, (Emitter.plain .standard 1).emit freeNested .empty .empty = .ok () after ∧
      after.lines.toList.map Line.text =
        ["int32_t *tmp = new int32_t[n];", "int32_t *tmp = new int32_t[m];", "delete[] tmp;",
          "delete[] tmp;"] ∧
      ∀ site ∈ HeapSite.written [] ((Emitter.plain .standard 1).heapSites freeNested .empty),
        site.InScope := by
  have ends := (written_frees_in_scope freeNested .empty).1 .standard 1 .empty rfl
  obtain ⟨after, succeeded, areLines⟩ : ∃ after,
      (Emitter.plain .standard 1).emit freeNested .empty .empty = .ok () after ∧
      after.lines.toList.map Line.text =
        ["int32_t *tmp = new int32_t[n];", "int32_t *tmp = new int32_t[m];", "delete[] tmp;",
          "delete[] tmp;"] := ⟨_, rfl, rfl⟩
  rw [succeeded] at ends
  cases ends with
  | ok _ _ scopes =>
    refine ⟨after, succeeded, areLines, scopes.inScope_of_apart ?_ ?_⟩
    · have arrays : (Emitter.plain .standard 1).allocations freeNested =
          [("tmp", .heap), ("tmp", .heap)] := rfl
      intro name _
      simp [arrays]
    · have sites : (Emitter.plain .standard 1).heapSites freeNested .empty =
          [⟨.allocate "tmp", .empty⟩, ⟨.allocate "tmp", Scope.empty.push "tmp" .heap⟩,
            ⟨.free "tmp", (Scope.empty.push "tmp" .heap).push "tmp" .heap⟩,
            ⟨.free "tmp", Scope.empty.push "tmp" .heap⟩] := rfl
      rw [sites]
      intro site membership name isFree
      simp only [List.mem_cons, List.not_mem_nil, or_false] at membership
      rcases membership with rfl | rfl | rfl | rfl <;> cases isFree <;> rfl

def freeInner : Stmt :=
  .allocate "tmp" .default [.var "n" .default]
    (.loop "i" (.ofInt 0) (.ofInt 4) (.allocate "tmp" .default [.ofInt 4] (.free "tmp")))

/-- The array on the stack is freed, for the sake of the one on the heap. -/
theorem freeInner_not_in_scope :
    ∃ after, (Emitter.plain .standard 1).emit freeInner .empty .empty = .ok () after ∧
      after.lines.toList.map Line.text =
        ["int32_t *tmp = new int32_t[n];", "for (int i = 0; i < 0 + 4; i++) \x7b",
          "int32_t tmp[4];", "delete[] tmp;", "\x7d"] ∧
      ∃ site ∈ HeapSite.written [] ((Emitter.plain .standard 1).heapSites freeInner .empty),
        site.step = .free "tmp" ∧ site.scope.get? "tmp" = some .stack :=
  ⟨_, rfl, rfl, _, List.mem_cons_of_mem _ List.mem_cons_self, rfl, rfl⟩

end StreamSynth
