import StreamSynth.Emit.Stmt
import StreamSynth.Proofs.Identifier

/-!
# Texts on one line

What stands in the generated code for an expression, a type or a declaration has no line end,
whatever names and strings occur in it: names become identifiers, and a line end in a string is
escaped.
-/

namespace StreamSynth

theorem IsIdentifier.lineEnd_not_mem {chars : List Char} (isIdentifier : IsIdentifier chars) :
    '\n' ∉ chars := by
  intro isLineEnd
  exact absurd (isIdentifier.legal _ isLineEnd) (by decide)

@[simp] theorem lineEnd_not_mem_identifier (name : String) : '\n' ∉ (identifier name).toList :=
  (isIdentifier_identifier name).lineEnd_not_mem

section Numbers

theorem lineEnd_not_mem_toDigits {base : Nat} (isBase : base = 10 ∨ base = 16) (n : Nat) :
    '\n' ∉ Nat.toDigits base n := by
  have noDigit : ∀ digit < base, Nat.digitChar digit ≠ '\n' := by
    rcases isBase with rfl | rfl <;> decide
  have positive : 1 < base := by omega
  induction n using Nat.strongRecOn with
  | ind n inductionHypothesis =>
    by_cases isDigit : n < base
    · rw [Nat.toDigits_of_lt_base isDigit, List.mem_singleton]
      exact (noDigit n isDigit).symm
    · have further := inductionHypothesis (n / base) (Nat.div_lt_self (by omega) positive)
      have last := noDigit (n % base) (Nat.mod_lt n (by omega))
      rw [Nat.toDigits_of_base_le positive (by omega), List.mem_append, List.mem_singleton]
      exact not_or.mpr ⟨further, last.symm⟩

@[simp] theorem lineEnd_not_mem_natural (n : Nat) : '\n' ∉ Nat.toDigits 10 n :=
  lineEnd_not_mem_toDigits (.inl rfl) n

def isNumeralChar (c : Char) : Bool := c.isAlphanum || c = '.' || c = '-'

theorem isNumeralChar_of_isDigit {c : Char} (digit : c.isDigit = true) :
    isNumeralChar c = true := by
  simp [isNumeralChar, Char.isAlphanum, digit]

theorem numeral_toDigits (n : Nat) : ∀ c ∈ Nat.toDigits 10 n, isNumeralChar c = true :=
  fun _ membership =>
    isNumeralChar_of_isDigit (Nat.isDigit_of_mem_toDigits (by decide) (by decide) membership)

theorem numeral_integer (n : Int) : ∀ c ∈ n.repr.toList, isNumeralChar c = true := by
  have digits := numeral_toDigits n.natAbs
  cases n with
  | ofNat n =>
    change ∀ c ∈ n.repr.toList, _
    rw [Nat.toList_repr]
    exact digits
  | negSucc n =>
    change ∀ c ∈ ("-" ++ (n + 1).repr).toList, _
    rw [String.toList_append, Nat.toList_repr]
    exact List.forall_mem_cons.mpr ⟨rfl, digits⟩

@[simp] theorem lineEnd_not_mem_integer (n : Int) : '\n' ∉ n.repr.toList :=
  fun isLineEnd => absurd (numeral_integer n _ isLineEnd) (by decide)

namespace Decimal

theorem numeral_zeros (n : Nat) : ∀ c ∈ List.replicate n '0', isNumeralChar c = true :=
  fun _ membership => List.eq_of_mem_replicate membership ▸ rfl

theorem numeral_split (d : Decimal) :
    (∀ c ∈ d.split.1, isNumeralChar c = true) ∧ ∀ c ∈ d.split.2, isNumeralChar c = true := by
  have digits : ∀ c ∈ digitChars d.digits, isNumeralChar c = true := numeral_toDigits d.digits
  simp only [split]
  split
  · exact ⟨List.forall_mem_singleton.mpr rfl,
      List.forall_mem_append.mpr ⟨numeral_zeros _, digits⟩⟩
  split
  · exact ⟨List.forall_mem_append.mpr ⟨digits, numeral_zeros _⟩, List.forall_mem_nil _⟩
  · exact ⟨fun c inTaken => digits c (List.mem_of_mem_take inTaken),
      fun c inRest => digits c (List.mem_of_mem_drop inRest)⟩

theorem numeral_pointed (d : Decimal) : ∀ c ∈ d.pointed.toList, isNumeralChar c = true := by
  obtain ⟨whole, fraction⟩ := d.numeral_split
  simp only [pointed, String.toList_ofList]
  refine List.forall_mem_append.mpr ⟨whole, List.forall_mem_cons.mpr ⟨rfl, ?_⟩⟩
  split
  · exact List.forall_mem_singleton.mpr rfl
  · exact fraction

theorem numeral_scientific (d : Decimal) :
    ∀ c ∈ (d.scientific "").toList, isNumeralChar c = true := by
  have digits : ∀ c ∈ digitChars d.digits, isNumeralChar c = true := numeral_toDigits d.digits
  have mantissa : ∀ c ∈ (digitChars d.digits).take 1 ++
      (if (digitChars d.digits).length ≤ 1 then [] else '.' :: (digitChars d.digits).drop 1),
      isNumeralChar c = true := by
    refine List.forall_mem_append.mpr ⟨fun c inTaken => digits c (List.mem_of_mem_take inTaken), ?_⟩
    split
    · exact List.forall_mem_nil _
    · exact List.forall_mem_cons.mpr ⟨rfl, fun c inRest => digits c (List.mem_of_mem_drop inRest)⟩
  simp only [scientific, ite_self, String.toList_append, String.toList_ofList]
  have marked := List.forall_mem_append.mpr
    ⟨mantissa, (List.all_eq_true.mp rfl : ∀ c ∈ "e".toList, isNumeralChar c = true)⟩
  have signed := List.forall_mem_append.mpr
    ⟨marked, (List.all_eq_true.mp rfl : ∀ c ∈ "".toList, isNumeralChar c = true)⟩
  exact List.forall_mem_append.mpr ⟨signed, numeral_integer _⟩

end Decimal

theorem numeral_literal (f : BinaryFormat) (word : Nat) :
    ∀ c ∈ (f.text .literal word).toList, isNumeralChar c = true := by
  have written (d : Decimal) : ∀ c ∈ (NumberStyle.literal.write d).toList,
      isNumeralChar c = true := by
    simp only [NumberStyle.literal, Decimal.mixed]
    split
    · exact d.numeral_pointed
    · exact d.numeral_scientific
  unfold BinaryFormat.text
  split
  · exact List.all_eq_true.mp rfl
  · split <;> exact List.all_eq_true.mp rfl
  · rw [String.toList_append]
    refine List.forall_mem_append.mpr ⟨?_, written _⟩
    split <;> exact List.all_eq_true.mp rfl

theorem lineEnd_not_mem_literal (f : BinaryFormat) (word : Nat) :
    '\n' ∉ (f.text .literal word).toList :=
  fun isLineEnd => absurd (numeral_literal f word _ isLineEnd) (by decide)

end Numbers

section Texts

theorem lineEnd_not_mem_escape (c : Char) : '\n' ∉ Quoted.escape c := by
  have codePoint : '\n' ∉ Quoted.codePointEscape c := by
    simp [Quoted.codePointEscape, lineEnd_not_mem_toDigits (.inr rfl)]
  by_cases isLineEnd : c = '\n'
  · subst isLineEnd
    decide
  · have itself : '\n' ∉ [c] := by simpa using Ne.symm isLineEnd
    unfold Quoted.escape
    repeat' split
    all_goals first | exact codePoint | exact itself | decide

@[simp] theorem lineEnd_not_mem_quoted (text : String) : '\n' ∉ (quoted text).toList := by
  simp [quoted, Quoted.chars, lineEnd_not_mem_escape]

theorem lineEnd_not_mem_commaSeparated {pieces : List String}
    (oneLine : ∀ piece ∈ pieces, '\n' ∉ piece.toList) : '\n' ∉ (commaSeparated pieces).toList := by
  unfold commaSeparated
  fun_induction joinWith ", " pieces with
  | case1 => decide
  | case2 piece => simpa using oneLine
  | case3 piece next rest inductionHypothesis =>
    obtain ⟨first, others⟩ := List.forall_mem_cons.mp oneLine
    simp [first, inductionHypothesis others]

@[simp] theorem ScalarType.lineEnd_not_mem_generated (t : ScalarType) :
    '\n' ∉ t.generated.toList := by
  unfold generated
  repeat' split
  all_goals decide

@[simp] theorem StencilType.lineEnd_not_mem_generated (t : StencilType) :
    '\n' ∉ t.generated.toList := by
  have extents : '\n' ∉ (commaSeparated (t.extents.map toString)).toList :=
    lineEnd_not_mem_commaSeparated (by simp)
  simp only [generated]
  split <;> simp [extents]

theorem lineEnd_not_mem_loopLine (name : String) {min extent : String}
    (oneMin : '\n' ∉ min.toList) (oneExtent : '\n' ∉ extent.toList) :
    '\n' ∉ (loopLine name min extent).toList := by
  unfold loopLine
  simp [oneMin, oneExtent]

end Texts

def GivesOnly {α : Type} (kind : α → Prop) (result : Except LoweringError α) : Prop :=
  ∀ value, result = .ok value → kind value

namespace GivesOnly

variable {α β : Type} {kind : α → Prop} {other : β → Prop}

theorem ok {value : α} (isKind : kind value) : GivesOnly kind (.ok value) := by
  rintro _ ⟨⟩
  exact isKind

theorem refused (e : LoweringError) : GivesOnly kind (.error e) := by
  rintro _ ⟨⟩

theorem bind {first : Except LoweringError α} {next : α → Except LoweringError β}
    (gives : GivesOnly kind first) (further : ∀ value, kind value → GivesOnly other (next value)) :
    GivesOnly other (first >>= next) := by
  cases first with
  | ok value => exact further value (gives value rfl)
  | error e => exact refused e

end GivesOnly

namespace Expr

theorem lineEnd_not_mem_printBinary (op : BinaryOp) {left right : String}
    (oneLeft : '\n' ∉ left.toList) (oneRight : '\n' ∉ right.toList) :
    '\n' ∉ (printBinary op left right).toList := by
  have oneSign : ∀ sign, op.sign? = some sign → '\n' ∉ sign.toList := by
    cases op <;> simp [BinaryOp.sign?]
  unfold printBinary
  split
  · next sign isSign => simp [oneLeft, oneRight, oneSign sign isSign]
  · split <;> simp [oneLeft, oneRight]

mutual

theorem oneLine_print (e : Expr) : GivesOnly (fun text => '\n' ∉ text.toList) e.print := by
  cases e with
  | int value type => exact .ok (by simp)
  | float value type =>
    refine .ok ?_
    split <;> simp [Binary64.literal, Binary64.singleLiteral, lineEnd_not_mem_literal]
  | string text => exact .ok (lineEnd_not_mem_quoted text)
  | var name type => exact .ok (lineEnd_not_mem_identifier name)
  | cast type arg => exact (oneLine_print arg).bind fun _ one => .ok (by simp [one])
  | binary op left right =>
    exact (oneLine_print left).bind fun _ oneLeft => (oneLine_print right).bind fun _ oneRight =>
      .ok (lineEnd_not_mem_printBinary op oneLeft oneRight)
  | not arg => exact (oneLine_print arg).bind fun _ one => .ok (by simp [one])
  | select condition whenTrue whenFalse =>
    exact (oneLine_print condition).bind fun _ one => (oneLine_print whenTrue).bind fun _ oneTrue =>
      (oneLine_print whenFalse).bind fun _ oneFalse => .ok (by simp [one, oneTrue, oneFalse])
  | load name type index => exact (oneLine_print index).bind fun _ one => .ok (by simp [one])
  | call name type args =>
    unfold print
    split
    · split
      · next source type index =>
        exact (oneLine_print index).bind fun _ one => .ok (by simp [one])
      · exact .refused _
    split
    · exact .refused _
    · exact (oneLine_printAll args).bind fun _ each =>
        .ok (by simp [lineEnd_not_mem_commaSeparated each])

theorem oneLine_printAll (args : List Expr) :
    GivesOnly (fun texts => ∀ text ∈ texts, '\n' ∉ text.toList) (printAll args) := by
  cases args with
  | nil => exact .ok (List.forall_mem_nil _)
  | cons arg rest =>
    exact (oneLine_print arg).bind fun _ one => (oneLine_printAll rest).bind fun _ each =>
      .ok (List.forall_mem_cons.mpr ⟨one, each⟩)

end

theorem oneLine_printArgs (args : List Expr) :
    GivesOnly (fun text => '\n' ∉ text.toList) (printArgs args) :=
  (oneLine_printAll args).bind fun _ each => .ok (lineEnd_not_mem_commaSeparated each)

end Expr

end StreamSynth
