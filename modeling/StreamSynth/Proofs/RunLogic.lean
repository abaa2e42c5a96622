import StreamSynth.Proofs.Emission

/-!
# Reasoning about runs that may stop

A run keeps what it did before it stopped, so that a statement about it has to cover both of its
ends. A `RunLogic` makes such statements about two runs that end alike, with a value or early: how
their states have changed in the one case and how in the other. A single run is compared with
itself. What holds of steps in a row follows from what holds of each of them.
-/

namespace StreamSynth

/-- What two runs have in common while they come by the items of a list. -/
structure RunLogic (γ σ τ : Type) where
  starts : σ → τ → Prop
  passes : List γ → σ → τ → σ → τ → Prop
  stops : List γ → Stop → σ → τ → σ → τ → Prop
  /-- The stops of the first run that the second one need not share. -/
  isOwn : Stop → Prop
  starts_of_passes : ∀ {items s t s' t'}, passes items s t s' t' → starts s' t'
  passes_nil : ∀ {s t}, starts s t → passes [] s t s t
  passes_append : ∀ {items more s t m n s' t'}, passes items s t m n → passes more m n s' t' →
    passes (items ++ more) s t s' t'
  stops_append : ∀ {items stop s t s' t'}, stops items stop s t s' t' →
    ∀ more, stops (items ++ more) stop s t s' t'
  stops_of_passes : ∀ {items more stop s t m n s' t'}, passes items s t m n →
    stops more stop m n s' t' → stops (items ++ more) stop s t s' t'
  refuses : ∀ {s t}, starts s t → ∀ items e, stops items (.refused e) s t s t

namespace RunLogic

variable {γ σ τ α β : Type} (L : RunLogic γ σ τ) (items : List γ)

inductive Ends (s : σ) (t : τ) : EStateM.Result Stop σ α → EStateM.Result Stop τ α → Prop
  | ok {value s' t'} : L.passes items s t s' t' → Ends s t (.ok value s') (.ok value t')
  | error {stop s' t'} : L.stops items stop s t s' t' → Ends s t (.error stop s') (.error stop t')
  | own {stop s' result} : L.isOwn stop → Ends s t (.error stop s') result

def Holds (run : Emission σ α) (other : Emission τ α) : Prop :=
  ∀ s t, L.starts s t → L.Ends items s t (run s) (other t)

/-- Nothing has to happen before a stop. -/
def Halts : Prop := ∀ {s t}, L.starts s t → ∀ stop, L.stops items stop s t s t

variable {L} {items} {more : List γ}

theorem Ends.after {s m : σ} {t n : τ} {result : EStateM.Result Stop σ α}
    {otherResult : EStateM.Result Stop τ α} (ends : L.Ends more m n result otherResult)
    (passes : L.passes items s t m n) : L.Ends (items ++ more) s t result otherResult := by
  cases ends with
  | ok further => exact .ok (L.passes_append passes further)
  | error stops => exact .error (L.stops_of_passes passes stops)
  | own isOwn => exact .own isOwn

namespace Holds

variable {run : Emission σ α} {other : Emission τ α}
  {next : α → Emission σ β} {otherNext : α → Emission τ β}

theorem pure (value : α) : L.Holds [] (Pure.pure value) (Pure.pure value) :=
  fun _ _ starts => .ok (L.passes_nil starts)

theorem refused (e : LoweringError) : L.Holds items (throw (.refused e) : Emission σ α)
    (throw (.refused e)) :=
  fun _ _ starts => .error (L.refuses starts items e)

theorem change {f : σ → σ} {g : τ → τ}
    (passes : ∀ s t, L.starts s t → L.passes items s t (f s) (g t)) :
    L.Holds items (modify f) (modify g) :=
  fun s t starts => .ok (passes s t starts)

theorem bind (first : L.Holds items run other)
    (rest : ∀ value, L.Holds more (next value) (otherNext value)) :
    L.Holds (items ++ more) (run >>= next) (other >>= otherNext) := by
  intro s t starts
  change L.Ends _ s t (EStateM.bind run next s) (EStateM.bind other otherNext t)
  unfold EStateM.bind
  have ends := first s t starts
  generalize run s = result at ends ⊢
  generalize other t = otherResult at ends ⊢
  cases ends with
  | own isOwn => exact .own isOwn
  | error stops => exact .error (L.stops_append stops more)
  | @ok value middle otherMiddle passes =>
    exact (rest value middle otherMiddle (L.starts_of_passes passes)).after passes

theorem imp (holds : L.Holds items run other)
    (passes : ∀ {s t s' t'}, L.passes items s t s' t' → L.passes more s t s' t')
    (stops : ∀ {stop s t s' t'}, L.stops items stop s t s' t' → L.stops more stop s t s' t') :
    L.Holds more run other := by
  intro s t starts
  have ends := holds s t starts
  generalize run s = result at ends ⊢
  generalize other t = otherResult at ends ⊢
  cases ends with
  | ok passed => exact .ok (passes passed)
  | error stopped => exact .error (stops stopped)
  | own isOwn => exact .own isOwn

theorem before (first : L.Holds [] run other)
    (rest : ∀ value, L.Holds items (next value) (otherNext value)) :
    L.Holds items (run >>= next) (other >>= otherNext) :=
  first.bind rest

theorem behind (first : L.Holds items run other)
    (rest : ∀ value, L.Holds [] (next value) (otherNext value)) :
    L.Holds items (run >>= next) (other >>= otherNext) := by
  have both := first.bind rest
  rwa [List.append_nil] at both

theorem ofExcept_bind {result : Except LoweringError α}
    (rest : ∀ value, result = .ok value → L.Holds items (next value) (otherNext value)) :
    L.Holds items (Emission.ofExcept result >>= next) (Emission.ofExcept result >>= otherNext) := by
  cases result with
  | ok value => exact rest value rfl
  | error e => exact refused e

theorem ofStop_bind (halts : L.Halts items) {result : Except Stop α}
    (rest : ∀ value, result = .ok value → L.Holds items (next value) (otherNext value)) :
    L.Holds items (Emission.ofStop result >>= next) (Emission.ofStop result >>= otherNext) := by
  cases result with
  | ok value => exact rest value rfl
  | error stop => exact fun _ _ starts => .error (halts starts stop)

theorem ofFold_bind (halts : L.Halts items) {result : Option α}
    (rest : ∀ value, result = some value → L.Holds items (next value) (otherNext value)) :
    L.Holds items (Emission.ofFold result >>= next) (Emission.ofFold result >>= otherNext) := by
  cases result with
  | some value => exact rest value rfl
  | none => exact fun _ _ starts => .error (halts starts .overflow)

end Holds

end RunLogic

end StreamSynth
