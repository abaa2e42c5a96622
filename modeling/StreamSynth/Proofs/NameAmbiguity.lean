import Mathlib.Data.List.Infix
import Mathlib.Tactic.TFAE
import StreamSynth.Proofs.ArgumentOutcome

/-!
# Ambiguous names

A name that is free in a region is ambiguous when it is metadata of a stencil: without the number
of a dimension, it is the name of a stencil followed by a scalar suffix. Of several scalar suffixes
that fit, only the first listed one is looked at. So an ambiguous name can be overlooked, and the
order of the list matters, exactly for names that one scalar suffix makes metadata of a stencil and
another does not. No name is like that when no scalar suffix ends in another.
-/

namespace StreamSynth

section Affixes

variable {name suffix subject base : String}

theorem endsIn_iff_suffix : endsIn name suffix = true ↔ suffix.toList <:+ name.toList := by
  rw [endsIn, List.isSuffixOf_iff_suffix]

theorem suffix_append (subject suffix : String) : suffix.toList <:+ (subject ++ suffix).toList := by
  rw [String.toList_append]
  exact List.suffix_append _ _

theorem beforeSuffix?_eq_some_iff : beforeSuffix? name suffix = some subject ↔
    name = subject ++ suffix := by
  rw [beforeSuffix?]
  constructor
  · split
    · next fits =>
      obtain ⟨head, isName⟩ := endsIn_iff_suffix.mp fits
      intro isSubject
      have isHead : subject = String.ofList head := by
        rw [← Option.some.inj isSubject, ← isName]
        simp
      apply String.toList_inj.mp
      rw [isHead, String.toList_append, String.toList_ofList, isName]
    · intro isSubject
      cases isSubject
  · rintro rfl
    rw [if_pos (endsIn_iff_suffix.mpr (suffix_append subject suffix))]
    simp [String.toList_append]

def IsIndexGroup (group : String) : Prop :=
  ∃ digits : String, digits ≠ "" ∧ digits.toList.all Char.isDigit = true ∧ group = "." ++ digits

/-- The name without its last group of a point and decimal digits, if it has one. -/
def IsBase (name base : String) : Prop :=
  (∃ group, IsIndexGroup group ∧ name = base ++ group) ∨
    (base = name ∧ ¬ ∃ head group, IsIndexGroup group ∧ name = head ++ group)

theorem withoutIndex_append {head group : String} (isGroup : IsIndexGroup group) :
    withoutIndex (head ++ group) = head := by
  obtain ⟨digits, nonempty, areDigits, rfl⟩ := isGroup
  have reversed : (head ++ ("." ++ digits)).toList.reverse =
      digits.toList.reverse ++ '.' :: head.toList.reverse := by
    simp [String.toList_append]
  have noPoint : ∀ c ∈ digits.toList.reverse, decide (c ≠ '.') = true := by
    intro c membership
    have isDigit := List.all_eq_true.mp areDigits c (List.mem_reverse.mp membership)
    refine decide_eq_true ?_
    rintro rfl
    exact absurd isDigit (by decide)
  have grouped : (digits.toList.reverse ++ '.' :: head.toList.reverse).takeWhile (· ≠ '.') =
      digits.toList.reverse := by
    rw [List.takeWhile_append_of_pos noPoint]
    simp
  have nonempty' : digits.toList ≠ [] := fun isNil => nonempty (String.toList_eq_nil_iff.mp isNil)
  unfold withoutIndex
  simp only [reversed, grouped, List.drop_left, List.isEmpty_reverse, List.all_reverse, areDigits,
    List.isEmpty_eq_false_iff.mpr nonempty', Bool.not_true, Bool.or_self, List.reverse_reverse,
    String.ofList_toList]
  rfl

theorem withoutIndex_cases (name : String) :
    withoutIndex name = name ∨ ∃ group, IsIndexGroup group ∧ name = withoutIndex name ++ group := by
  unfold withoutIndex
  dsimp only
  generalize isGroup : name.toList.reverse.takeWhile (· ≠ '.') = group
  split
  · next head isRest =>
    split
    · exact .inl rfl
    · next digits =>
      simp only [Bool.or_eq_true, List.isEmpty_iff, Bool.not_eq_true', not_or,
        Bool.not_eq_false] at digits
      have reversed : name.toList.reverse = group ++ '.' :: head := by
        rw [← isRest]
        exact (List.prefix_iff_eq_append.mp (isGroup ▸ List.takeWhile_prefix _)).symm
      refine .inr ⟨"." ++ String.ofList group.reverse, ⟨_, ?_, ?_, rfl⟩, ?_⟩
      · intro isEmpty
        have isNil := congrArg String.toList isEmpty
        rw [String.toList_ofList] at isNil
        exact digits.1 (List.reverse_eq_nil_iff.mp isNil)
      · rw [String.toList_ofList, List.all_reverse]
        exact digits.2
      · apply String.toList_inj.mp
        rw [← List.reverse_reverse name.toList, reversed]
        simp [String.toList_append]
  · exact .inl rfl

theorem isBase_iff : IsBase name base ↔ base = withoutIndex name := by
  constructor
  · rintro (⟨group, isGroup, rfl⟩ | ⟨rfl, noGroup⟩)
    · exact (withoutIndex_append isGroup).symm
    · obtain same | grouped := withoutIndex_cases base
      · exact same.symm
      · obtain ⟨group, isGroup, isName⟩ := grouped
        exact absurd ⟨_, group, isGroup, isName⟩ noGroup
  · rintro rfl
    by_cases grouped : ∃ head group, IsIndexGroup group ∧ name = head ++ group
    · obtain ⟨head, group, isGroup, rfl⟩ := grouped
      rw [withoutIndex_append isGroup]
      exact .inl ⟨group, isGroup, rfl⟩
    · obtain same | ⟨group, isGroup, isName⟩ := withoutIndex_cases name
      · exact .inr ⟨same, grouped⟩
      · exact absurd ⟨_, group, isGroup, isName⟩ grouped

end Affixes

namespace Naming

variable {naming order : Naming} {name region base subject suffix : String}

def NamesStencil (naming : Naming) (name : String) : Prop :=
  ∃ suffix ∈ naming.stencilSuffixes, suffix.toList <:+ name.toList

theorem isStencil_eq_true_iff : naming.isStencil name = true ↔ naming.NamesStencil name := by
  simp only [isStencil, NamesStencil, List.any_eq_true, endsIn_iff_suffix]

def FirstFits (naming : Naming) (base subject : String) : Prop :=
  ∃ before suffix after, naming.scalarSuffixes = before ++ suffix :: after ∧
    base = subject ++ suffix ∧ ∀ earlier ∈ before, ∀ head, base ≠ head ++ earlier

def DescribesStencil (naming : Naming) (base : String) : Prop :=
  ∃ suffix ∈ naming.scalarSuffixes, ∃ subject, base = subject ++ suffix ∧
    naming.NamesStencil subject

def FirstDescribesStencil (naming : Naming) (base : String) : Prop :=
  ∃ subject, naming.FirstFits base subject ∧ naming.NamesStencil subject

/-- All scalar suffixes that fit agree on whether the name is metadata of a stencil. -/
def Consistent (naming : Naming) (base : String) : Prop :=
  ∀ suffix ∈ naming.scalarSuffixes, ∀ subject, base = subject ++ suffix →
    ∀ suffix' ∈ naming.scalarSuffixes, ∀ subject', base = subject' ++ suffix' →
      naming.NamesStencil subject → naming.NamesStencil subject'

structure Reorders (naming order : Naming) : Prop where
  regionStart : order.regionStart = naming.regionStart
  streamSuffix : order.streamSuffix = naming.streamSuffix
  stencilSuffixes : order.stencilSuffixes.Perm naming.stencilSuffixes
  updateSuffixes : order.updateSuffixes.Perm naming.updateSuffixes
  scalarSuffixes : order.scalarSuffixes.Perm naming.scalarSuffixes
  descriptorSuffix : order.descriptorSuffix = naming.descriptorSuffix

theorem findSome?_beforeSuffix?_eq_some_iff :
    naming.scalarSuffixes.findSome? (beforeSuffix? base) = some subject ↔
      naming.FirstFits base subject := by
  have fitsNot (suffix : String) : beforeSuffix? base suffix = none ↔
      ∀ head, base ≠ head ++ suffix := by
    simp only [Option.eq_none_iff_forall_ne_some, ne_eq, beforeSuffix?_eq_some_iff]
  simp only [FirstFits, List.findSome?_eq_some_iff, beforeSuffix?_eq_some_iff, fitsNot]

theorem FirstFits.exists_listed (firstFits : naming.FirstFits base subject) :
    ∃ suffix ∈ naming.scalarSuffixes, base = subject ++ suffix := by
  obtain ⟨before, suffix, after, split, fits, _⟩ := firstFits
  refine ⟨suffix, ?_, fits⟩
  rw [split]
  exact List.mem_append_right _ List.mem_cons_self

theorem exists_firstFits (listed : suffix ∈ naming.scalarSuffixes)
    (fits : base = subject ++ suffix) : ∃ first, naming.FirstFits base first := by
  have found : (naming.scalarSuffixes.findSome? (beforeSuffix? base)).isSome = true := by
    refine List.findSome?_isSome_iff.mpr ⟨suffix, listed, ?_⟩
    rw [beforeSuffix?_eq_some_iff.mpr fits]
    rfl
  obtain ⟨first, isFirst⟩ := Option.isSome_iff_exists.mp found
  exact ⟨first, findSome?_beforeSuffix?_eq_some_iff.mp isFirst⟩

theorem classify_cases (noUpdate : ¬ naming.NamesUpdate name) (isBase : IsBase name base)
    (region : String) :
    (naming.FirstDescribesStencil base ∧
        naming.classify name region = .error (.ambiguousName name region)) ∨
      (¬ naming.FirstDescribesStencil base ∧ naming.NamesStencil name ∧
        naming.classify name region = .ok .stencil) ∨
      (¬ naming.FirstDescribesStencil base ∧ ¬ naming.NamesStencil name ∧
        naming.classify name region = .ok .scalar) := by
  obtain rfl := isBase_iff.mp isBase
  have described : (naming.scalarSubject? name).any naming.isStencil = true ↔
      naming.FirstDescribesStencil (withoutIndex name) := by
    simp only [Option.any_eq_true, scalarSubject?, findSome?_beforeSuffix?_eq_some_iff,
      isStencil_eq_true_iff, FirstDescribesStencil]
  rw [← isUpdate_eq_true_iff] at noUpdate
  rw [← described, ← isStencil_eq_true_iff, classify, if_neg noUpdate]
  split
  · next ambiguous => exact .inl ⟨ambiguous, rfl⟩
  · next notAmbiguous =>
    split
    · next isStencil => exact .inr (.inl ⟨notAmbiguous, isStencil, rfl⟩)
    · next notStencil => exact .inr (.inr ⟨notAmbiguous, notStencil, rfl⟩)

theorem classify_eq_ambiguous_iff (noUpdate : ¬ naming.NamesUpdate name)
    (isBase : IsBase name base) (region : String) :
    naming.classify name region = .error (.ambiguousName name region) ↔
      naming.FirstDescribesStencil base := by
  obtain ⟨first, outcome⟩ | ⟨notFirst, _, outcome⟩ | ⟨notFirst, _, outcome⟩ :=
    classify_cases noUpdate isBase region
  · simp [outcome, first]
  · simp [outcome, notFirst]
  · simp [outcome, notFirst]

theorem classify_eq_stencil_iff (noUpdate : ¬ naming.NamesUpdate name) (isBase : IsBase name base)
    (region : String) :
    naming.classify name region = .ok .stencil ↔
      ¬ naming.FirstDescribesStencil base ∧ naming.NamesStencil name := by
  obtain ⟨first, outcome⟩ | ⟨notFirst, isStencil, outcome⟩ | ⟨_, notStencil, outcome⟩ :=
    classify_cases noUpdate isBase region
  · simp [outcome, first]
  · simp [outcome, notFirst, isStencil]
  · simp [outcome, notStencil]

theorem classify_eq_scalar_iff (noUpdate : ¬ naming.NamesUpdate name) (isBase : IsBase name base)
    (region : String) :
    naming.classify name region = .ok .scalar ↔
      ¬ naming.FirstDescribesStencil base ∧ ¬ naming.NamesStencil name := by
  obtain ⟨first, outcome⟩ | ⟨_, isStencil, outcome⟩ | ⟨notFirst, notStencil, outcome⟩ :=
    classify_cases noUpdate isBase region
  · simp [outcome, first]
  · simp [outcome, isStencil]
  · simp [outcome, notFirst, notStencil]

theorem firstDescribesStencil_iff (consistent : naming.Consistent base) :
    naming.FirstDescribesStencil base ↔ naming.DescribesStencil base := by
  constructor
  · rintro ⟨subject, firstFits, isStencil⟩
    obtain ⟨suffix, listed, fits⟩ := firstFits.exists_listed
    exact ⟨suffix, listed, subject, fits, isStencil⟩
  · rintro ⟨suffix, listed, subject, fits, isStencil⟩
    obtain ⟨first, firstFits⟩ := exists_firstFits listed fits
    obtain ⟨suffix', listed', fits'⟩ := firstFits.exists_listed
    exact ⟨first, firstFits,
      consistent suffix listed subject fits suffix' listed' first fits' isStencil⟩

/-- Of two scalar suffixes that fit, one ends in the other. -/
theorem consistent_of_no_overlap (noOverlap : ∀ suffix ∈ naming.scalarSuffixes,
    ∀ suffix' ∈ naming.scalarSuffixes, suffix.toList <:+ suffix'.toList → suffix = suffix')
    (base : String) : naming.Consistent base := by
  intro suffix listed subject fits suffix' listed' subject' fits' isStencil
  have ends : suffix.toList <:+ base.toList := fits ▸ suffix_append subject suffix
  have ends' : suffix'.toList <:+ base.toList := fits' ▸ suffix_append subject' suffix'
  have same : suffix = suffix' := by
    obtain overlap | overlap := List.suffix_or_suffix_of_suffix ends ends'
    · exact noOverlap suffix listed suffix' listed' overlap
    · exact (noOverlap suffix' listed' suffix listed overlap).symm
  subst same
  rwa [← (String.append_left_inj suffix).mp (fits.symm.trans fits')]

namespace Reorders

theorem refl (naming : Naming) : naming.Reorders naming :=
  ⟨rfl, rfl, .refl _, .refl _, .refl _, rfl⟩

variable (reorders : naming.Reorders order)

include reorders

theorem namesStencil_iff : order.NamesStencil name ↔ naming.NamesStencil name := by
  simp only [NamesStencil, reorders.stencilSuffixes.mem_iff]

theorem namesUpdate_iff : order.NamesUpdate name ↔ naming.NamesUpdate name := by
  simp only [NamesUpdate, reorders.updateSuffixes.mem_iff]

theorem describesStencil_iff : order.DescribesStencil base ↔ naming.DescribesStencil base := by
  simp only [DescribesStencil, reorders.scalarSuffixes.mem_iff, reorders.namesStencil_iff]

theorem consistent_iff : order.Consistent base ↔ naming.Consistent base := by
  simp only [Consistent, reorders.scalarSuffixes.mem_iff, reorders.namesStencil_iff]

/-- The first scalar suffix that fits is all that the order can change. -/
theorem classify_eq (noUpdate : ¬ naming.NamesUpdate name) (isBase : IsBase name base)
    (sameFirst : order.FirstDescribesStencil base ↔ naming.FirstDescribesStencil base)
    (region : String) : order.classify name region = naming.classify name region := by
  have noUpdate' : ¬ order.NamesUpdate name := mt reorders.namesUpdate_iff.mp noUpdate
  obtain ⟨first, outcome⟩ | ⟨notFirst, isStencil, outcome⟩ | ⟨notFirst, notStencil, outcome⟩ :=
    classify_cases noUpdate' isBase region
  · rw [outcome, (classify_eq_ambiguous_iff noUpdate isBase region).mpr (sameFirst.mp first)]
  · rw [outcome, (classify_eq_stencil_iff noUpdate isBase region).mpr
      ⟨mt sameFirst.mpr notFirst, reorders.namesStencil_iff.mp isStencil⟩]
  · rw [outcome, (classify_eq_scalar_iff noUpdate isBase region).mpr
      ⟨mt sameFirst.mpr notFirst, mt reorders.namesStencil_iff.mpr notStencil⟩]

end Reorders

theorem exists_reorders_first (listed : suffix ∈ naming.scalarSuffixes)
    (fits : base = subject ++ suffix) :
    ∃ order, naming.Reorders order ∧
      (order.FirstDescribesStencil base ↔ naming.NamesStencil subject) := by
  let order : Naming :=
    { naming with scalarSuffixes := suffix :: naming.scalarSuffixes.erase suffix }
  have reorders : naming.Reorders order :=
    ⟨rfl, rfl, .refl _, .refl _, (List.perm_cons_erase listed).symm, rfl⟩
  refine ⟨order, reorders, ?_⟩
  constructor
  · rintro ⟨first, ⟨before, suffix', after, split, fits', noneBefore⟩, isStencil⟩
    have sameSuffix : suffix = suffix' := by
      cases before with
      | nil => exact (List.cons.inj split).1
      | cons earlier before =>
        obtain rfl : suffix = earlier := (List.cons.inj split).1
        exact absurd fits (noneBefore suffix List.mem_cons_self subject)
    subst sameSuffix
    rwa [(String.append_left_inj suffix).mp (fits.symm.trans fits')]
  · intro isStencil
    exact ⟨subject, ⟨[], suffix, _, rfl, fits, List.forall_mem_nil _⟩, isStencil⟩

/-- A name is reported as ambiguous exactly when the first scalar suffix that fits it makes it
metadata of a stencil; any other name is a stencil or a scalar by its own end. All names that some
scalar suffix makes metadata of a stencil are reported, in whatever order the suffixes are listed,
exactly when the scalar suffixes that fit agree, and then the order does not matter at all. They
agree on every name when no scalar suffix ends in another. -/
theorem classify_ambiguity (noUpdate : ¬ naming.NamesUpdate name) (isBase : IsBase name base)
    (region : String) :
    (naming.classify name region = .error (.ambiguousName name region) ↔
        naming.FirstDescribesStencil base) ∧
      (naming.classify name region = .ok .stencil ↔
        ¬ naming.FirstDescribesStencil base ∧ naming.NamesStencil name) ∧
      (naming.classify name region = .ok .scalar ↔
        ¬ naming.FirstDescribesStencil base ∧ ¬ naming.NamesStencil name) ∧
      [naming.Consistent base,
        ∀ order, naming.Reorders order →
          (order.classify name region = .error (.ambiguousName name region) ↔
            naming.DescribesStencil base),
        ∀ order, naming.Reorders order →
          order.classify name region = naming.classify name region].TFAE ∧
      ((∀ suffix ∈ naming.scalarSuffixes, ∀ suffix' ∈ naming.scalarSuffixes,
          suffix.toList <:+ suffix'.toList → suffix = suffix') → naming.Consistent base) := by
  refine ⟨classify_eq_ambiguous_iff noUpdate isBase region,
    classify_eq_stencil_iff noUpdate isBase region, classify_eq_scalar_iff noUpdate isBase region,
    ?_, fun noOverlap => consistent_of_no_overlap noOverlap base⟩
  have ambiguous_iff (order : Naming) (reorders : naming.Reorders order) :
      order.classify name region = .error (.ambiguousName name region) ↔
        order.FirstDescribesStencil base :=
    classify_eq_ambiguous_iff (mt reorders.namesUpdate_iff.mp noUpdate) isBase region
  tfae_have 1 → 2 := by
    intro consistent order reorders
    rw [ambiguous_iff order reorders,
      firstDescribesStencil_iff (reorders.consistent_iff.mpr consistent),
      reorders.describesStencil_iff]
  tfae_have 2 → 3 := by
    intro complete order reorders
    apply reorders.classify_eq noUpdate isBase
    rw [← ambiguous_iff order reorders, complete order reorders,
      ← ambiguous_iff naming (.refl naming), complete naming (.refl naming)]
  tfae_have 3 → 1 := by
    intro sameAnswer suffix listed subject fits suffix' listed' subject' fits' isStencil
    obtain ⟨order, reorders, first⟩ := exists_reorders_first listed fits
    obtain ⟨order', reorders', first'⟩ := exists_reorders_first listed' fits'
    rw [← ambiguous_iff order reorders, sameAnswer order reorders] at first
    rw [← ambiguous_iff order' reorders', sameAnswer order' reorders'] at first'
    exact first'.mp (first.mpr isStencil)
  tfae_finish

/-- Under the standard conventions, metadata of a stream is ambiguous in every order of the
suffixes. -/
theorem classify_ambiguity_streamExtent :
    ¬ standard.NamesUpdate "in.stream.extent.0" ∧
      IsBase "in.stream.extent.0" "in.stream.extent" ∧
      ∀ order, standard.Reorders order → order.classify "in.stream.extent.0" "hw" =
        .error (.ambiguousName "in.stream.extent.0" "hw") := by
  have noUpdate : ¬ standard.NamesUpdate "in.stream.extent.0" := by
    rw [← isUpdate_eq_true_iff]
    decide
  have isBase : IsBase "in.stream.extent.0" "in.stream.extent" := isBase_iff.mpr (by decide)
  obtain ⟨_, _, _, equivalent, consistent⟩ := classify_ambiguity noUpdate isBase "hw"
  have sameAnswer : standard.Consistent "in.stream.extent" ↔ ∀ order, standard.Reorders order →
      order.classify "in.stream.extent.0" "hw" = standard.classify "in.stream.extent.0" "hw" :=
    equivalent.out 0 2
  refine ⟨noUpdate, isBase, fun order reorders => ?_⟩
  rw [sameAnswer.mp (consistent (by decide)) order reorders]
  rfl

def overlapping : Naming := { standard with scalarSuffixes := [".size", ".elem.size"] }

/-- The size of an element of a stream is metadata of a stencil. It is passed as a scalar, because
the first scalar suffix leaves another subject; in the other order it is ambiguous. -/
theorem overlapping_overlooked :
    ¬ overlapping.NamesUpdate "in.stream.elem.size" ∧
      IsBase "in.stream.elem.size" "in.stream.elem.size" ∧
      overlapping.DescribesStencil "in.stream.elem.size" ∧
      overlapping.classify "in.stream.elem.size" "hw" = .ok .scalar ∧
      { overlapping with scalarSuffixes := [".elem.size", ".size"] }.classify
        "in.stream.elem.size" "hw" = .error (.ambiguousName "in.stream.elem.size" "hw") := by
  refine ⟨?_, isBase_iff.mpr (by decide), ?_, rfl, rfl⟩
  · rw [← isUpdate_eq_true_iff]
    decide
  · refine ⟨".elem.size", by decide, "in.stream", by decide, ?_⟩
    rw [← isStencil_eq_true_iff]
    decide

end Naming

end StreamSynth
