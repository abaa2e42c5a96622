import StreamSynth.Proofs.FreshName

/-!
# Names handed out in a row

The names for any bases in turn all differ, also where one base looks like a numbered form of
another. Each is the first candidate of its base that was not handed out before, and the search for
it takes no more turns than there are names handed out.
-/

namespace StreamSynth.FreshNames

def uniqueAll (names : FreshNames) : List String → List String
  | [] => []
  | base :: bases => (names.unique base).1 :: (names.unique base).2.uniqueAll bases

def afterAll (names : FreshNames) (bases : List String) : FreshNames :=
  bases.foldl (fun names base => (names.unique base).2) names

/-- A name that is right for a base when the earlier names are issued. -/
inductive NameFor (earlier : List String) (base : String) : String → Prop
  | itself : base ∉ earlier → NameFor earlier base base
  | numbered {k : Nat} : base ∈ earlier → 1 ≤ k → base ++ "_" ++ toString k ∉ earlier →
      (∀ j, 1 ≤ j → j < k → base ++ "_" ++ toString j ∈ earlier) →
      NameFor earlier base (base ++ "_" ++ toString k)

/-- The search as a loop without a bound: at number `n` it takes another turn while the candidate
is issued. It is told how many turns there are and which name they end at. -/
inductive Finds (issued : List String) (base : String) : Nat → Nat → String → Prop
  | stop {n : Nat} : candidate base n ∉ issued → Finds issued base n 0 (candidate base n)
  | turn {n turns : Nat} {name : String} : candidate base n ∈ issued →
      Finds issued base (n + 1) turns name → Finds issued base n (turns + 1) name

section Loop

variable {issued : List String} {base : String}

theorem candidate_eq_numbered {k : Nat} (positive : 1 ≤ k) :
    candidate base k = base ++ "_" ++ toString k := by
  rw [candidate, if_neg (by omega)]

/-- The loop passes the candidates that are issued and ends at the next one. -/
theorem finds_candidate {n turns : Nat} (free : candidate base (n + turns) ∉ issued)
    (taken : ∀ k, n ≤ k → k < n + turns → candidate base k ∈ issued) :
    Finds issued base n turns (candidate base (n + turns)) := by
  induction turns generalizing n with
  | zero => exact .stop free
  | succ turns inductionHypothesis =>
    have shifted : n + (turns + 1) = n + 1 + turns := by omega
    rw [shifted] at free taken ⊢
    refine .turn (taken n (Nat.le_refl n) (by omega)) (inductionHypothesis free ?_)
    exact fun k onward below => taken k (by omega) below

theorem nameFor_candidate {m : Nat} (free : candidate base m ∉ issued)
    (taken : ∀ k < m, candidate base k ∈ issued) : NameFor issued base (candidate base m) := by
  cases m with
  | zero => exact .itself free
  | succ m =>
    have positive : 1 ≤ m + 1 := by omega
    rw [candidate_eq_numbered positive] at free ⊢
    refine .numbered (taken 0 positive) positive free fun j atLeast below => ?_
    rw [← candidate_eq_numbered atLeast]
    exact taken j below

end Loop

section Calls

variable (names : FreshNames)

theorem unique_finds (base : String) :
    NameFor names.issued base (names.unique base).1 ∧
      ∃ turns ≤ names.issued.length, Finds names.issued base 0 turns (names.unique base).1 := by
  obtain ⟨m, bounded, result, free, taken⟩ := names.unique_eq_candidate base
  rw [result]
  refine ⟨nameFor_candidate free taken, m, bounded, ?_⟩
  have found : Finds names.issued base 0 m (candidate base (0 + m)) :=
    finds_candidate (by rwa [Nat.zero_add]) fun k _ below => taken k (by omega)
  rwa [Nat.zero_add] at found

theorem uniqueAll_append (first rest : List String) :
    names.uniqueAll (first ++ rest) =
      names.uniqueAll first ++ (names.afterAll first).uniqueAll rest := by
  induction first generalizing names with
  | nil => rfl
  | cons base first inductionHypothesis =>
    rw [List.cons_append, uniqueAll, inductionHypothesis]
    rfl

theorem issued_afterAll (bases : List String) :
    (names.afterAll bases).issued = (names.uniqueAll bases).reverse ++ names.issued := by
  induction bases generalizing names with
  | nil => rfl
  | cons base bases inductionHypothesis =>
    refine (inductionHypothesis (names.unique base).2).trans ?_
    simp [uniqueAll]

theorem nodup_issued_afterAll (bases : List String) (distinct : names.issued.Nodup) :
    (names.afterAll bases).issued.Nodup := by
  induction bases generalizing names with
  | nil => exact distinct
  | cons base bases inductionHypothesis =>
    refine inductionHypothesis (names.unique base).2 ?_
    rw [issued_unique]
    exact List.nodup_cons.mpr ⟨names.unique_notMem base, distinct⟩

theorem length_uniqueAll (bases : List String) :
    (names.uniqueAll bases).length = bases.length := by
  induction bases generalizing names with
  | nil => rfl
  | cons base bases inductionHypothesis =>
    exact congrArg (· + 1) (inductionHypothesis (names.unique base).2)

end Calls

theorem NameFor.congr {some other : List String} {base name : String}
    (same : ∀ name, name ∈ some ↔ name ∈ other) (nameFor : NameFor some base name) :
    NameFor other base name := by
  cases nameFor with
  | itself free => exact .itself (mt (same _).mpr free)
  | numbered taken positive free between =>
    exact .numbered ((same _).mp taken) positive (mt (same _).mpr free)
      fun j atLeast below => (same _).mp (between j atLeast below)

theorem Finds.congr {some other : List String} {base name : String} {n turns : Nat}
    (same : ∀ name, name ∈ some ↔ name ∈ other) (finds : Finds some base n turns name) :
    Finds other base n turns name := by
  induction finds with
  | stop free => exact .stop (mt (same _).mpr free)
  | turn taken _ further => exact .turn ((same _).mp taken) further

/-- The names for any bases in turn all differ. The name of a call, told by the names before it, is
the base or its least free number, and the loop ends there within as many turns as there are
names before it. -/
theorem uniqueAll_distinct_and_least :
    (∀ bases, (empty.uniqueAll bases).Nodup ∧ (empty.uniqueAll bases).length = bases.length) ∧
    ∀ before base after, ∃ name later,
      empty.uniqueAll (before ++ base :: after) = empty.uniqueAll before ++ name :: later ∧
      NameFor (empty.uniqueAll before) base name ∧
      ∃ turns ≤ (empty.uniqueAll before).length,
        Finds (empty.uniqueAll before) base 0 turns name := by
  have issued (bases : List String) :
      (empty.afterAll bases).issued = (empty.uniqueAll bases).reverse := by
    rw [issued_afterAll, empty, List.append_nil]
  constructor
  · intro bases
    have distinct := nodup_issued_afterAll empty bases List.nodup_nil
    rw [issued, (List.reverse_perm _).nodup_iff] at distinct
    exact ⟨distinct, length_uniqueAll empty bases⟩
  · intro before base after
    have same : ∀ name, name ∈ (empty.afterAll before).issued ↔ name ∈ empty.uniqueAll before := by
      intro name
      rw [issued, List.mem_reverse]
    obtain ⟨nameFor, turns, bounded, finds⟩ := (empty.afterAll before).unique_finds base
    refine ⟨_, _, uniqueAll_append empty before (base :: after), nameFor.congr same, turns, ?_,
      finds.congr same⟩
    rwa [issued, List.length_reverse] at bounded

-- The second base was handed out as a numbered form of the first.
example : empty.uniqueAll ["hw", "hw", "hw_1", "hw_1", "hw"] =
    ["hw", "hw_1", "hw_1_1", "hw_1_2", "hw_2"] := by decide +kernel

end StreamSynth.FreshNames
