import Mathlib.Data.List.Forall2
import Mathlib.Data.List.Nodup
import StreamSynth.Proofs.KernelArguments

/-!
# Parameters hidden by locals

Different names can have one identifier. The arguments of a kernel are compared with each other, so
the identifier of a free name belongs to one parameter only. Names that the body binds are compared
with the arguments only as far as they are arguments themselves: a local that is spelled like a
parameter around one of its uses, and is nowhere free, hides the parameter there.
-/

namespace StreamSynth

section Spelling

def becomesUnderscore (c : Char) : Bool := c = '_' || !isIdentifierChar c

def AlikeChars (c d : Char) : Prop :=
  c = d ∨ becomesUnderscore c = true ∧ becomesUnderscore d = true

instance (c d : Char) : Decidable (AlikeChars c d) := inferInstanceAs (Decidable (_ ∨ _))

/-- Names whose characters an identifier does not tell apart, where one that starts with a digit
may lack the underscore that the other one starts with. -/
def SpelledAlike (a b : List Char) : Prop :=
  List.Forall₂ AlikeChars a b ∨
    (a.head?.any Char.isDigit = true ∧ List.Forall₂ AlikeChars ('_' :: a) b) ∨
    (b.head?.any Char.isDigit = true ∧ List.Forall₂ AlikeChars a ('_' :: b))

instance (a b : List Char) : Decidable (SpelledAlike a b) := inferInstanceAs (Decidable (_ ∨ _))

def identifierChar (c : Char) : Char := if isIdentifierChar c then c else '_'

theorem identifierChar_eq_iff (c d : Char) :
    identifierChar c = identifierChar d ↔ AlikeChars c d := by
  unfold identifierChar AlikeChars becomesUnderscore
  have legal := isIdentifierChar_underscore
  grind

theorem identifierChar_underscore : identifierChar '_' = '_' :=
  if_pos isIdentifierChar_underscore

theorem isDigit_identifierChar (c : Char) : (identifierChar c).isDigit = c.isDigit := by
  unfold identifierChar
  split
  · rfl
  · next illegal =>
    have noDigit : ¬ c.isDigit = true := fun digit => illegal (isIdentifierChar_of_isDigit digit)
    rw [Bool.not_eq_true] at noDigit
    rw [noDigit]
    decide

theorem map_identifierChar_eq_iff (a b : List Char) :
    a.map identifierChar = b.map identifierChar ↔ List.Forall₂ AlikeChars a b := by
  rw [← List.forall₂_eq_eq_eq, List.forall₂_map_left_iff, List.forall₂_map_right_iff]
  simp only [identifierChar_eq_iff]

theorem head?_map_identifierChar_any_isDigit (name : List Char) :
    (name.map identifierChar).head?.any Char.isDigit = name.head?.any Char.isDigit := by
  cases name with
  | nil => rfl
  | cons c rest => exact isDigit_identifierChar c

theorem identifierChars_eq (name : List Char) :
    identifierChars name =
      if name.head?.any Char.isDigit then ('_' :: name).map identifierChar
      else name.map identifierChar := by
  rw [List.map_cons, identifierChar_underscore, ← head?_map_identifierChar_any_isDigit]
  rfl

/-- Of two names that differ in nothing but underscores, both start with a digit or none does. -/
theorem head?_any_isDigit_of_alike {a b : List Char} (alike : List.Forall₂ AlikeChars a b) :
    a.head?.any Char.isDigit = b.head?.any Char.isDigit := by
  rw [← head?_map_identifierChar_any_isDigit, (map_identifierChar_eq_iff a b).mpr alike,
    head?_map_identifierChar_any_isDigit]

theorem alike_cons_underscore_iff {a b : List Char} :
    List.Forall₂ AlikeChars ('_' :: a) ('_' :: b) ↔ List.Forall₂ AlikeChars a b := by
  rw [List.forall₂_cons]
  exact and_iff_right (.inl rfl)

theorem identifierChars_eq_iff (a b : List Char) :
    identifierChars a = identifierChars b ↔ SpelledAlike a b := by
  rw [identifierChars_eq, identifierChars_eq, SpelledAlike]
  -- An underscore is put before both, before one or before none.
  cases startsA : a.head?.any Char.isDigit <;> cases startsB : b.head?.any Char.isDigit <;>
    simp only [if_true, if_false, Bool.false_eq_true, true_and, false_and, or_false, false_or,
      map_identifierChar_eq_iff]
  · refine (or_iff_right fun alike => ?_).symm
    rw [head?_any_isDigit_of_alike alike, startsB] at startsA
    cases startsA
  · refine (or_iff_right fun alike => ?_).symm
    rw [head?_any_isDigit_of_alike alike, startsB] at startsA
    cases startsA
  · rw [alike_cons_underscore_iff]
    refine (or_iff_left ?_).symm
    rintro (alike | alike)
    · rw [← head?_any_isDigit_of_alike alike] at startsB
      cases startsB
    · rw [head?_any_isDigit_of_alike alike] at startsA
      cases startsA

/-- Two names have one identifier exactly when they are spelled alike. -/
theorem identifier_eq_iff (a b : String) :
    identifier a = identifier b ↔ SpelledAlike a.toList b.toList := by
  rw [identifier, identifier, String.ofList_inj, identifierChars_eq_iff]

end Spelling

/-- `second` is the first of the names that has the identifier of one before it, and `first` is
that one. -/
def FirstRepeat (names : List String) (first second : String) : Prop :=
  ∃ before after, names = before ++ second :: after ∧ (before.map identifier).Nodup ∧
    first ∈ before ∧ identifier first = identifier second

namespace FirstRepeat

variable {names : List String} {first second : String}

theorem not_nodup_append {before : List String} (isBefore : first ∈ before)
    (same : identifier first = identifier second) (after : List String) :
    ¬ ((before ++ second :: after).map identifier).Nodup := by
  rw [List.map_append, List.map_cons]
  intro distinct
  exact List.disjoint_of_nodup_append distinct (List.mem_map_of_mem isBefore)
    (same ▸ List.mem_cons_self)

theorem not_nodup (repeats : FirstRepeat names first second) :
    ¬ (names.map identifier).Nodup := by
  obtain ⟨before, after, rfl, _, isBefore, same⟩ := repeats
  exact not_nodup_append isBefore same after

theorem unique (repeats : FirstRepeat names first second) {otherFirst otherSecond : String}
    (repeatsToo : FirstRepeat names otherFirst otherSecond) :
    first = otherFirst ∧ second = otherSecond := by
  obtain ⟨before, after, areNames, distinct, isBefore, same⟩ := repeats
  obtain ⟨otherBefore, otherAfter, areOthers, otherDistinct, isOtherBefore, otherSame⟩ := repeatsToo
  rw [areNames] at areOthers
  -- Neither of the two can stand behind the other, where names are no longer distinct.
  rcases List.append_eq_append_iff.mp areOthers with ⟨gap, rfl, areRest⟩ | ⟨gap, rfl, areRest⟩
  · cases gap with
    | nil =>
      cases areRest
      rw [List.append_nil] at isOtherBefore
      exact ⟨List.inj_on_of_nodup_map distinct isBefore isOtherBefore (same.trans otherSame.symm),
        rfl⟩
    | cons between gap =>
      cases areRest
      exact absurd otherDistinct (not_nodup_append isBefore same gap)
  · cases gap with
    | nil =>
      cases areRest
      rw [List.append_nil] at isBefore distinct
      exact ⟨List.inj_on_of_nodup_map distinct isBefore isOtherBefore (same.trans otherSame.symm),
        rfl⟩
    | cons between gap =>
      cases areRest
      exact absurd distinct (not_nodup_append isOtherBefore otherSame gap)

end FirstRepeat

namespace Argument

/-- The check passes distinct identifiers and otherwise reports the first repeat. -/
theorem checkIdentifiers_cases (region : String) {seen : List Argument} (args : List Argument)
    (distinct : ((seen.map name).map identifier).Nodup) :
    (checkIdentifiers region seen args = .ok () ∧
      (((seen ++ args).map name).map identifier).Nodup) ∨
    ∃ first second, FirstRepeat ((seen ++ args).map name) first second ∧
      checkIdentifiers region seen args =
        .error (.argumentCollision first second (identifier second) region) := by
  induction args generalizing seen with
  | nil => exact .inl ⟨rfl, by rwa [List.append_nil]⟩
  | cons arg rest inductionHypothesis =>
    rw [checkIdentifiers]
    cases found : seen.find? (identifier ·.name = identifier arg.name) with
    | some first =>
      have same := List.find?_some found
      rw [decide_eq_true_eq] at same
      refine .inr
        ⟨first.name, arg.name, ⟨seen.map name, rest.map name, ?_, distinct, ?_, same⟩, rfl⟩
      · rw [List.map_append, List.map_cons]
      · exact List.mem_map_of_mem (List.mem_of_find?_eq_some found)
    | none =>
      have fresh : identifier arg.name ∉ (seen.map name).map identifier := by
        simpa using found
      have distinctToo : (((seen ++ [arg]).map name).map identifier).Nodup := by
        rw [List.map_append, List.map_append]
        exact List.nodup_append_comm.mp (List.nodup_cons.mpr ⟨fresh, distinct⟩)
      simpa using inductionHypothesis distinctToo

variable {region : String} {args : List Argument}

theorem checkIdentifiers_eq_ok_iff :
    checkIdentifiers region [] args = .ok () ↔ ((args.map name).map identifier).Nodup := by
  rcases @checkIdentifiers_cases region [] args List.nodup_nil with
    ⟨checked, distinct⟩ | ⟨first, second, repeats, refused⟩
  · exact iff_of_true checked distinct
  · rw [refused]
    exact iff_of_false (by simp) repeats.not_nodup

theorem checkIdentifiers_eq_error_iff {e : LoweringError} :
    checkIdentifiers region [] args = .error e ↔
      ∃ first second, FirstRepeat (args.map name) first second ∧
        e = .argumentCollision first second (identifier second) region := by
  rcases @checkIdentifiers_cases region [] args List.nodup_nil with
    ⟨checked, distinct⟩ | ⟨first, second, repeats, refused⟩
  · rw [checked]
    refine iff_of_false (by simp) ?_
    rintro ⟨first, second, repeats, _⟩
    exact repeats.not_nodup distinct
  · rw [refused]
    constructor
    · rintro ⟨⟩
      exact ⟨first, second, repeats, rfl⟩
    · rintro ⟨otherFirst, otherSecond, repeatsToo, rfl⟩
      obtain ⟨rfl, rfl⟩ := repeats.unique repeatsToo
      rfl

end Argument

section Arguments

variable {stencils : Scope StencilType} {naming : Naming} {region : String} {args : List Argument}

theorem Closure.nodup_identifiers {c : Closure}
    (succeeded : c.arguments stencils naming region = .ok args) :
    (args.map (identifier ·.name)).Nodup := by
  obtain ⟨_, _, _, checked⟩ := Closure.arguments_eq_ok succeeded
  have distinct := Argument.checkIdentifiers_eq_ok_iff.mp checked
  rwa [List.map_map] at distinct

theorem Closure.mem_argument_names_iff {body : Stmt}
    (succeeded : (capture body).arguments stencils naming region = .ok args) (name : String) :
    name ∈ args.map Argument.name ↔ name ∈ body.freeOccurrences.map Occurrence.name := by
  rw [Closure.argument_names succeeded, Closure.mem_names_capture_iff]

/-- At a free use of a name, one argument has that name, and no other one has its identifier. A
binder around the use takes the identifier for itself exactly when it is spelled like the name and
is nowhere free in the body. -/
theorem Closure.hides_argument_iff {body : Stmt}
    (succeeded : (capture body).arguments stencils naming region = .ok args) {site : Site}
    (inBody : site ∈ body.sites) (isFree : site.isFree = true) :
    (∃ arg ∈ args, arg.name = site.occurrence.name ∧
      ∀ other ∈ args, identifier other.name = identifier site.occurrence.name → other = arg) ∧
    ∀ binder ∈ site.binders,
      identifier binder = identifier site.occurrence.name ↔
        SpelledAlike binder.toList site.occurrence.name.toList ∧
          binder ∉ body.freeOccurrences.map Occurrence.name := by
  have occurs : site.occurrence.name ∈ body.freeOccurrences.map Occurrence.name :=
    List.mem_map_of_mem (List.mem_map_of_mem (List.mem_filter.mpr ⟨inBody, isFree⟩))
  obtain ⟨arg, isArgument, sameName⟩ :=
    List.mem_map.mp ((mem_argument_names_iff succeeded _).mpr occurs)
  have onlyOne : ∀ other ∈ args, identifier other.name = identifier site.occurrence.name →
      other = arg := by
    intro other isOther same
    rw [← sameName] at same
    exact List.inj_on_of_nodup_map (nodup_identifiers succeeded) isOther isArgument same
  refine ⟨⟨arg, isArgument, sameName, onlyOne⟩, fun binder isBinder => ?_⟩
  rw [identifier_eq_iff]
  refine (and_iff_left_of_imp fun alike binderFree => ?_).symm
  -- A free name is an argument too, and the check has told the two arguments apart.
  obtain ⟨other, isOther, rfl⟩ :=
    List.mem_map.mp ((mem_argument_names_iff succeeded _).mpr binderFree)
  obtain rfl := onlyOne other isOther ((identifier_eq_iff _ _).mpr alike)
  simp only [Site.isFree, decide_eq_true_eq, ← sameName] at isFree
  exact isFree isBinder

def hidingLocal : Stmt :=
  .loop "i" (.ofInt 0) (.ofInt 4)
    (.letIn "a_b" (.ofInt 1) (.store "out" (.var "a.b" .default) (.ofInt 0)))

theorem Closure.hides_argument_iff_hidingLocal :
    ∃ args, (capture hidingLocal).arguments .empty .standard "hw" = .ok args ∧
      (∃ arg ∈ args, arg.name = "a.b" ∧
        ∀ other ∈ args, identifier other.name = identifier "a.b" → other = arg) ∧
      identifier "i" ≠ identifier "a.b" ∧ identifier "a_b" = identifier "a.b" := by
  refine ⟨_, rfl, ?_⟩
  obtain ⟨isArgument, hides⟩ := @hides_argument_iff .empty .standard "hw" _ hidingLocal rfl
    ⟨["a_b", "i"], .var "a.b" .default⟩ (.head _) (by decide)
  refine ⟨isArgument, fun same => ?_, ?_⟩
  · exact absurd ((hides "i" (by decide)).mp same).1 (by decide)
  · exact (hides "a_b" (by decide)).mpr (by decide)

/-- The kernel of `hidingLocal` has the parameter `a_b` for `a.b`, and stores the local of that
identifier instead. -/
theorem Closure.hidingLocal_hides_parameter :
    ∃ args, (capture hidingLocal).arguments .empty .standard "hw" = .ok args ∧
      args.map Argument.parameter = ["int32_t *out", "int32_t a_b"] ∧
      (∃ site ∈ hidingLocal.sites, site.isFree = true ∧ site.occurrence.name = "a.b" ∧
        ∃ binder ∈ site.binders, identifier binder = identifier "a.b") ∧
      ∃ after, Host.lowerRegion .standard "hw" hidingLocal .empty (.start .standard) =
          .ok () after ∧
        (after.kernels.source.lines.toList.drop 7).map Line.text =
          ["for (int i = 0; i < 0 + 4; i++) \x7b", "const int32_t a_b = 1;", "out[0] = a_b;",
            "\x7d", "\x7d", ""] :=
  ⟨_, rfl, rfl, ⟨_, .head _, by decide, rfl, by decide⟩, _, rfl, rfl⟩

end Arguments

end StreamSynth
