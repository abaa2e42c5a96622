import StreamSynth.Proofs.Packing
import StreamSynth.Proofs.Traversal

/-!
# Accesses to packed and plain stencils

Reads and writes at any index, in bounds or not, run on a stencil and on its packed form. Each
access gives the same answer on both, and the packed form stays that of the stencil.
-/

namespace StreamSynth

inductive Access (e : Element) where
  | get (index : Index)
  | set (index : Index) (value : e.Pattern)

namespace Access

variable {e : Element} {σ : Type}

def index : Access e → Index
  | get i | set i _ => i

/-- The answer to an access and the state after it. A read answers with the element, a write with
nothing, and an access that stops keeps the state. -/
def perform (get : σ → Index → Except Stop e.Pattern)
    (set : σ → Index → e.Pattern → Except Stop σ) (state : σ) :
    Access e → Except Stop (Option e.Pattern) × σ
  | .get i => ((get state i).map some, state)
  | .set i value =>
    match set state i value with
    | .ok next => (.ok none, next)
    | .error stop => (.error stop, state)

def performAt (read : Nat → e.Pattern) (write : Nat → e.Pattern → σ) (state : σ) (place : Nat) :
    Access e → Option e.Pattern × σ
  | .get _ => (some (read place), state)
  | .set _ value => (none, write place value)

/-- The elements of the state are reached through their places in a row. -/
structure ByPlace (get : σ → Index → Except Stop e.Pattern)
    (set : σ → Index → e.Pattern → Except Stop σ) (state : σ) (extents : Extents)
    (read : Nat → e.Pattern) (write : Nat → e.Pattern → σ) : Prop where
  count_lt : extents.count < 2 ^ 64
  get_eq : ∀ i, get state i = (extents.linear i).map read
  set_eq : ∀ i value, set state i value = (extents.linear i).map (write · value)

/-- An access succeeds in bounds, and out of bounds it is refused and changes nothing. -/
theorem ByPlace.perform_eq {get : σ → Index → Except Stop e.Pattern}
    {set : σ → Index → e.Pattern → Except Stop σ} {state : σ} {extents : Extents}
    {read : Nat → e.Pattern} {write : Nat → e.Pattern → σ}
    (byPlace : ByPlace get set state extents read write) (a : Access e) :
    a.perform get set state = if extents.contains a.index then
        (a.performAt read write state (extents.place a.index)).map .ok id
      else (.error (.refused (.indexOutOfBounds a.index.toList extents.toList)), state) := by
  cases a with
  | get i =>
    rw [perform, byPlace.get_eq, Extents.linear_eq_ite byPlace.count_lt, index]
    split <;> rfl
  | set i value =>
    rw [perform, byPlace.set_eq, Extents.linear_eq_ite byPlace.count_lt, index]
    by_cases inside : extents.contains i = true
    · rw [if_pos inside, if_pos inside]
      rfl
    · rw [if_neg inside, if_neg inside]
      rfl

end Access

namespace Stencil

variable {e : Element} (s : Stencil e)

def access (a : Access e) : Except Stop (Option e.Pattern) × Stencil e :=
  a.perform Stencil.get Stencil.set s

def after (accesses : List (Access e)) : Stencil e :=
  accesses.foldl (fun t a => (t.access a).2) s

theorem byPlace :
    Access.ByPlace Stencil.get Stencil.set s s.extents (s.values.getD · 0) s.write where
  count_lt := s.count_lt
  get_eq i := by
    rw [get]
    cases s.extents.linear i <;> rfl
  set_eq i value := by
    rw [set]
    cases s.extents.linear i <;> rfl

/-- Read in the order of storage, a stencil gives its values as they are stored. -/
theorem mapM_get_indices : s.extents.indices.mapM s.get = .ok s.values.toList := by
  have stored : s.values.toList =
      s.extents.indices.map fun i => s.values.getD (s.extents.place i) 0 := by
    calc s.values.toList
        = (List.range s.values.size).map (s.values.getD · 0) := by
          apply List.ext_getElem
          · simp
          · intro place inLeft _
            rw [Array.length_toList] at inLeft
            simp [inLeft]
      _ = (s.extents.indices.map s.extents.place).map (s.values.getD · 0) := by
          rw [s.extents.map_place_indices, s.size_values]
      _ = _ := List.map_map
  rw [stored, mapM_eq_ok_iff, List.forall₂_map_right_iff, List.forall₂_same]
  intro i membership
  rw [s.byPlace.get_eq, Extents.linear_eq_ite s.count_lt,
    if_pos (Extents.mem_indices_iff.mp membership)]
  rfl

end Stencil

namespace PackedStencil

variable {e : Element} (p : PackedStencil e)

def access (a : Access e) : Except Stop (Option e.Pattern) × PackedStencil e :=
  a.perform PackedStencil.get PackedStencil.set p

def after (accesses : List (Access e)) : PackedStencil e :=
  accesses.foldl (fun q a => (q.access a).2) p

theorem byPlace : Access.ByPlace PackedStencil.get PackedStencil.set p p.extents
    (fun place => p.readAt (place * e.bits)) (fun place => p.writeAt (place * e.bits)) where
  count_lt := p.count_lt
  get_eq := p.get_eq_map
  set_eq := p.set_eq_map

variable {p} {s : Stencil e}

/-- One access: the same answer on both sides, and the representation is kept. -/
theorem Represents.access (represents : p.Represents s) (a : Access e) :
    (p.access a).1 = (s.access a).1 ∧ (p.access a).2.Represents (s.access a).2 := by
  rw [PackedStencil.access, Stencil.access, p.byPlace.perform_eq, s.byPlace.perform_eq,
    represents.extents_eq]
  split
  · next inside =>
    cases a with
    | get i =>
      exact ⟨congrArg (Except.ok ∘ some) (represents.readAt_eq (s.extents.place i)), represents⟩
    | set i value => exact ⟨rfl, represents.write value (Extents.place_lt_count inside)⟩
  · exact ⟨rfl, represents⟩

theorem Represents.after (represents : p.Represents s) (accesses : List (Access e)) :
    (p.after accesses).Represents (s.after accesses) := by
  induction accesses generalizing p s with
  | nil => exact represents
  | cons a rest inductionHypothesis => exact inductionHypothesis (represents.access a).2

end PackedStencil

end StreamSynth
