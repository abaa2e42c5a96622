import Mathlib.Data.List.Forall2

/-!
# Traversals that may stop

A traversal succeeds when every entry passes, with the results in order, and stops at the first
entry that is refused.
-/

namespace StreamSynth

variable {α β ε : Type} {f : α → Except ε β} {entries : List α}

theorem forall₂_of_mapM_eq_ok {results : List β} (succeeded : entries.mapM f = .ok results) :
    List.Forall₂ (fun entry result => f entry = .ok result) entries results := by
  induction entries generalizing results with
  | nil =>
    cases succeeded
    exact .nil
  | cons entry entries inductionHypothesis =>
    rw [List.mapM_cons] at succeeded
    cases isFirst : f entry with
    | error e =>
      rw [isFirst] at succeeded
      cases succeeded
    | ok first =>
      cases areRest : entries.mapM f with
      | error e =>
        rw [isFirst, areRest] at succeeded
        cases succeeded
      | ok rest =>
        rw [isFirst, areRest] at succeeded
        cases succeeded
        exact .cons isFirst (inductionHypothesis areRest)

theorem mapM_eq_ok_iff {results : List β} :
    entries.mapM f = .ok results ↔
      List.Forall₂ (fun entry result => f entry = .ok result) entries results := by
  refine ⟨forall₂_of_mapM_eq_ok, fun passed => ?_⟩
  induction passed with
  | nil => rfl
  | cons isFirst _ inductionHypothesis =>
    rw [List.mapM_cons, isFirst, inductionHypothesis]
    rfl

/-- A traversal stops at the first entry that is refused. -/
theorem mapM_eq_error_iff {e : ε} :
    entries.mapM f = .error e ↔
      ∃ before entry after, entries = before ++ entry :: after ∧
        (∀ earlier ∈ before, ∃ result, f earlier = .ok result) ∧ f entry = .error e := by
  induction entries with
  | nil =>
    constructor
    · intro stopped
      cases stopped
    · rintro ⟨before, entry, after, areEntries, _⟩
      simp at areEntries
  | cons first rest inductionHypothesis =>
    rw [List.mapM_cons]
    simp only [List.cons_eq_append_iff]
    cases isFirst : f first with
    | error stop =>
      change Except.error stop = .error e ↔ _
      constructor
      · rintro ⟨⟩
        exact ⟨[], first, rest, .inl ⟨rfl, rfl⟩, List.forall_mem_nil _, isFirst⟩
      · rintro ⟨before, entry, after, ⟨rfl, areEntries⟩ | ⟨tail, rfl, _⟩, passed, refused⟩
        · cases areEntries
          rw [isFirst] at refused
          cases refused
          rfl
        · obtain ⟨result, isResult⟩ := passed first List.mem_cons_self
          rw [isFirst] at isResult
          cases isResult
    | ok result =>
      have onward : (do
          let results ← rest.mapM f
          return result :: results) = .error e ↔ rest.mapM f = .error e := by
        cases rest.mapM f with
        | error stop => rfl
        | ok results =>
          constructor
          · intro stopped
            cases stopped
          · intro stopped
            cases stopped
      refine onward.trans (inductionHypothesis.trans ?_)
      constructor
      · rintro ⟨before, entry, after, areEntries, passed, refused⟩
        exact ⟨first :: before, entry, after, .inr ⟨before, rfl, areEntries⟩,
          List.forall_mem_cons.mpr ⟨⟨result, isFirst⟩, passed⟩, refused⟩
      · rintro ⟨before, entry, after, ⟨rfl, areEntries⟩ | ⟨tail, rfl, areEntries⟩, passed, refused⟩
        · cases areEntries
          rw [isFirst] at refused
          cases refused
        · exact ⟨tail, entry, after, areEntries, (List.forall_mem_cons.mp passed).2, refused⟩

theorem exists_mapM_eq_ok_iff :
    (∃ results, entries.mapM f = .ok results) ↔
      ∀ entry ∈ entries, ∃ result, f entry = .ok result := by
  constructor
  · rintro ⟨results, succeeded⟩
    have passed := mapM_eq_ok_iff.mp succeeded
    clear succeeded
    induction passed with
    | nil => exact List.forall_mem_nil _
    | cons isFirst _ inductionHypothesis =>
      exact List.forall_mem_cons.mpr ⟨⟨_, isFirst⟩, inductionHypothesis⟩
  · intro allPass
    cases outcome : entries.mapM f with
    | ok results => exact ⟨results, rfl⟩
    | error e =>
      obtain ⟨before, entry, after, rfl, _, refused⟩ := mapM_eq_error_iff.mp outcome
      obtain ⟨result, passes⟩ := allPass entry (by simp)
      rw [refused] at passes
      cases passes

theorem exists_common_result {ε' : Type} {g : α → Except ε' β} {results : List β}
    (first : entries.mapM f = .ok results) (second : entries.mapM g = .ok results)
    {entry : α} (isEntry : entry ∈ entries) :
    ∃ result, f entry = .ok result ∧ g entry = .ok result := by
  have firstPassed := mapM_eq_ok_iff.mp first
  have secondPassed := mapM_eq_ok_iff.mp second
  clear first second
  induction firstPassed with
  | nil => simp at isEntry
  | cons isFirst _ inductionHypothesis =>
    cases secondPassed with
    | cons isSecond rest =>
      cases isEntry with
      | head => exact ⟨_, isFirst, isSecond⟩
      | tail _ later => exact inductionHypothesis later rest

end StreamSynth
