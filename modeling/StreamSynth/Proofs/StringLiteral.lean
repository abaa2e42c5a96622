import Mathlib.Algebra.Group.Nat.Defs
import StreamSynth.Emit.Stmt
import StreamSynth.Proofs.QuotedText

/-!
# String literals of the generated code

A literal of the generated code is read by the rules of its language: a character stands for
itself, or it is told by a letter behind a backslash, by up to three octal digits, or by a `u` and
four hexadecimal digits. Quoted text keeps to these rules except in two places. An escape by code
point is none of theirs, and a null character is written as one octal digit, to which the digits
behind it are added.
-/

namespace StreamSynth

namespace StringLiteral

def isOctalDigit (c : Char) : Bool := c ∈ ['0', '1', '2', '3', '4', '5', '6', '7']

def isHexDigit (c : Char) : Bool :=
  c.isDigit || c ∈ ['a', 'b', 'c', 'd', 'e', 'f', 'A', 'B', 'C', 'D', 'E', 'F']

def digitValue (c : Char) : Nat :=
  if c.isDigit then c.toNat - '0'.toNat
  else if c.isLower then c.toNat - 'a'.toNat + 10
  else c.toNat - 'A'.toNat + 10

def value (base : Nat) (digits : List Char) : Nat :=
  digits.foldl (fun value digit => base * value + digitValue digit) 0

def letters : List (Char × Char) :=
  [('"', '"'), ('\\', '\\'), ('n', '\n'), ('r', '\r'), ('t', '\t')]

/-- In front of `rest`, the text stands for a character. Octal digits are taken as long as there are
any, up to the third. -/
inductive Stands (rest : List Char) : List Char → Char → Prop
  | itself {c} : c ∉ ['"', '\\', '\n'] → Stands rest [c] c
  | letter {letter c} : (letter, c) ∈ letters → Stands rest ['\\', letter] c
  | octal {digits c} : 0 < digits.length → digits.length ≤ 3 →
      (∀ digit ∈ digits, isOctalDigit digit = true) →
      (digits.length < 3 → rest.head?.any isOctalDigit = false) →
      c.toNat = value 8 digits → Stands rest ('\\' :: digits) c
  | universal {digits c} : digits.length = 4 → (∀ digit ∈ digits, isHexDigit digit = true) →
      c.toNat = value 16 digits → Stands rest ('\\' :: 'u' :: digits) c

inductive Body : List Char → List Char → Prop
  | close : Body ['"'] []
  | item {item rest c text} : Stands rest item c → Body rest text → Body (item ++ rest) (c :: text)

def Denotes (literal text : String) : Prop :=
  ∃ body, literal.toList = '"' :: body ∧ Body body text.toList

/-- A character that is shown as itself, or for which there is a letter or a digit. -/
def IsDirect (c : Char) : Prop :=
  c ∈ ['\x00', '\t', '\n', '\r'] ∨
    (32 ≤ c.toNat ∧ c.toNat ≠ 127 ∧ (127 < c.toNat → isUnprintable c = false))

instance : DecidablePred IsDirect := fun c =>
  inferInstanceAs (Decidable (c ∈ ['\x00', '\t', '\n', '\r'] ∨
    (32 ≤ c.toNat ∧ c.toNat ≠ 127 ∧ (127 < c.toNat → isUnprintable c = false))))

def NullsApart (text : List Char) : Prop :=
  ∀ digit, ['\x00', digit] <:+: text → isOctalDigit digit = false

open Quoted (escape codePointEscape)

inductive Written (c : Char) : Prop
  | itself : c ∉ ['"', '\\', '\n'] → c ≠ '\x00' → IsDirect c → escape c = [c] → Written c
  | letter (letter) : (letter, c) ∈ letters → IsDirect c → escape c = ['\\', letter] → Written c
  | null : c = '\x00' → Written c
  | codePoint : ¬ IsDirect c → escape c = codePointEscape c → Written c

theorem written (c : Char) : Written c := by
  cases Quoted.written c with
  | itself notQuote notBackslash isShown escape_eq =>
    have shown_ne {other : Char} (isControl : other.toNat < 32) : c ≠ other := by
      rintro rfl
      exact absurd isShown.1 (by omega)
    have notLineEnd : c ≠ '\n' := shown_ne (by decide)
    have ordinary : c ∉ ['"', '\\', '\n'] := by simp [notQuote, notBackslash, notLineEnd]
    exact .itself ordinary (shown_ne (by decide)) (.inr isShown) escape_eq
  | letter letter isLetter escape_eq =>
    have isEscape : (letter, c) ∈ letters ++ [('0', '\x00')] := isLetter
    rcases List.mem_append.mp isEscape with isLetter | isNull
    · refine .letter letter isLetter ?_ escape_eq
      simp only [letters, List.mem_cons, Prod.mk.injEq, List.not_mem_nil, or_false] at isLetter
      rcases isLetter with ⟨_, rfl⟩ | ⟨_, rfl⟩ | ⟨_, rfl⟩ | ⟨_, rfl⟩ | ⟨_, rfl⟩ <;> decide
    · exact .null (Prod.mk.inj (List.mem_singleton.mp isNull)).2
  | codePoint notShown noLetter escape_eq =>
    refine .codePoint (fun direct => ?_) escape_eq
    rcases direct with isControl | isShown
    · simp only [List.mem_cons, List.not_mem_nil, or_false] at isControl
      rcases isControl with rfl | rfl | rfl | rfl
      · exact noLetter '0' (by decide)
      · exact noLetter 't' (by decide)
      · exact noLetter 'n' (by decide)
      · exact noLetter 'r' (by decide)
    · exact notShown isShown

theorem escape_of_isOctalDigit {c : Char} (isOctal : isOctalDigit c = true) : escape c = [c] := by
  simp only [isOctalDigit, List.mem_cons, List.not_mem_nil, or_false, decide_eq_true_eq] at isOctal
  rcases isOctal with rfl | rfl | rfl | rfl | rfl | rfl | rfl | rfl <;> rfl

theorem isDirect_of_isOctalDigit {c : Char} (isOctal : isOctalDigit c = true) : IsDirect c := by
  simp only [isOctalDigit, List.mem_cons, List.not_mem_nil, or_false, decide_eq_true_eq] at isOctal
  rcases isOctal with rfl | rfl | rfl | rfl | rfl | rfl | rfl | rfl <;> exact .inr (by decide)

def rendered (text : List Char) : List Char := text.flatMap escape ++ ['"']

theorem rendered_cons (c : Char) (text : List Char) :
    rendered (c :: text) = escape c ++ rendered text := by
  simp [rendered]

theorem rendered_append_octal {digits : List Char}
    (areOctal : ∀ digit ∈ digits, isOctalDigit digit = true) (text : List Char) :
    rendered (digits ++ text) = digits ++ rendered text := by
  induction digits with
  | nil => rfl
  | cons digit digits inductionHypothesis =>
    obtain ⟨isOctal, areOctal⟩ := List.forall_mem_cons.mp areOctal
    rw [List.cons_append, rendered_cons, escape_of_isOctalDigit isOctal,
      inductionHypothesis areOctal]
    rfl

/-- A text goes on with an octal digit where its written form does. -/
theorem head_rendered (text : List Char) :
    (rendered text).head?.any isOctalDigit = text.head?.any isOctalDigit := by
  cases text with
  | nil => rfl
  | cons c text =>
    by_cases isOctal : isOctalDigit c = true
    · rw [rendered_cons, escape_of_isOctalDigit isOctal]
      rfl
    · have noDigit : isOctalDigit c = false := Bool.eq_false_iff.mpr isOctal
      rw [rendered_cons]
      change _ = isOctalDigit c
      rw [noDigit]
      cases written c with
      | itself _ _ _ escape_eq =>
        rw [escape_eq]
        exact noDigit
      | letter letter _ _ escape_eq =>
        rw [escape_eq]
        rfl
      | null isNull =>
        subst isNull
        rfl
      | codePoint _ escape_eq =>
        rw [escape_eq]
        rfl

/-- Octal digits at the start of a written form are characters of the text. -/
theorem rendered_eq_octal_append {digits rest text : List Char}
    (areOctal : ∀ digit ∈ digits, isOctalDigit digit = true)
    (split : rendered text = digits ++ rest) :
    ∃ later, text = digits ++ later ∧ rest = rendered later := by
  induction digits generalizing text with
  | nil => exact ⟨text, rfl, split.symm⟩
  | cons digit digits inductionHypothesis =>
    obtain ⟨isOctal, othersOctal⟩ := List.forall_mem_cons.mp areOctal
    have starts := head_rendered text
    rw [split] at starts
    cases text with
    | nil =>
      change isOctalDigit digit = false at starts
      rw [isOctal] at starts
      cases starts
    | cons c text =>
      change isOctalDigit digit = isOctalDigit c at starts
      rw [rendered_cons, escape_of_isOctalDigit (starts.symm.trans isOctal)] at split
      obtain ⟨rfl, splitLater⟩ := List.cons.inj split
      obtain ⟨later, rfl, isRest⟩ := inductionHypothesis othersOctal splitLater
      exact ⟨later, rfl, isRest⟩

theorem nullsApart_cons {c : Char} {text : List Char} :
    NullsApart (c :: text) ↔
      (c = '\x00' → text.head?.any isOctalDigit = false) ∧ NullsApart text := by
  have starts_iff (digit : Char) :
      ['\x00', digit] <+: c :: text ↔ c = '\x00' ∧ text.head? = some digit := by
    cases text <;> simp [List.cons_prefix_cons, eq_comm]
  simp only [NullsApart, List.infix_cons_iff, starts_iff, or_imp, forall_and, and_imp]
  refine and_congr_left fun _ => ?_
  cases text.head? <;> simp

theorem nullsApart_nil : NullsApart [] := by
  simp [NullsApart]

section Reading

variable {c letter : Char} {rest text : List Char}

theorem Body.of_ordinary (ordinary : c ∉ ['"', '\\', '\n']) (body : Body (c :: rest) text) :
    ∃ later, text = c :: later ∧ Body rest later := by
  generalize isText : c :: rest = source at body
  cases body with
  | close => simp_all
  | item stands later =>
    cases stands with
    | itself _ =>
      obtain ⟨rfl, rfl⟩ := List.cons.inj isText
      exact ⟨_, rfl, later⟩
    | letter _ => simp_all
    | octal _ _ _ _ _ => simp_all
    | universal _ _ _ => simp_all

theorem Body.of_backslash (body : Body ('\\' :: letter :: rest) text) :
    (∃ c later, (letter, c) ∈ letters ∧ text = c :: later ∧ Body rest later) ∨
      (∃ digits behind c later, rest = digits ++ behind ∧ digits.length ≤ 2 ∧
        (∀ digit ∈ letter :: digits, isOctalDigit digit = true) ∧
        (digits.length < 2 → behind.head?.any isOctalDigit = false) ∧
        text = c :: later ∧ Body behind later) ∨
      (letter = 'u' ∧ rest.head?.any isHexDigit = true) := by
  generalize isText : '\\' :: letter :: rest = source at body
  cases body with
  | close => simp_all
  | @item item behind c later stands body =>
    cases stands with
    | itself ordinary =>
      obtain ⟨rfl, -⟩ := List.cons.inj isText
      exact absurd (by decide) ordinary
    | letter isLetter =>
      obtain ⟨rfl, rfl⟩ := List.cons.inj (List.cons.inj isText).2
      exact .inl ⟨_, _, isLetter, rfl, body⟩
    | @octal digits _ nonempty short areOctal ends _ =>
      cases digits with
      | nil => cases nonempty
      | cons digit digits =>
        obtain ⟨rfl, rfl⟩ := List.cons.inj (List.cons.inj isText).2
        rw [List.length_cons] at short ends
        exact .inr (.inl ⟨digits, behind, c, later, rfl, by omega, areOctal,
          fun fewer => ends (by omega), rfl, body⟩)
    | @universal digits _ four areHex _ =>
      obtain ⟨rfl, rfl⟩ := List.cons.inj (List.cons.inj isText).2
      cases digits with
      | nil => cases four
      | cons digit digits => exact .inr (.inr ⟨rfl, areHex digit List.mem_cons_self⟩)

theorem Body.of_quote (body : Body ('"' :: rest) text) : rest = [] ∧ text = [] := by
  generalize isText : '"' :: rest = source at body
  cases body with
  | close => exact ⟨(List.cons.inj isText).2, rfl⟩
  | item stands later =>
    cases stands with
    | itself ordinary =>
      obtain ⟨rfl, -⟩ := List.cons.inj isText
      exact absurd (by decide) ordinary
    | letter _ => simp at isText
    | octal _ _ _ _ _ => simp at isText
    | universal _ _ _ => simp at isText

end Reading

structure ReadsAs (text content : List Char) : Prop where
  direct : ∀ c ∈ text, IsDirect c
  length_le : content.length ≤ text.length
  apart : content = text → NullsApart text

namespace ReadsAs

variable {c d : Char} {text content : List Char}

theorem cons (isDirect : IsDirect c) (notNull : c ≠ '\x00') (readsAs : ReadsAs text content) :
    ReadsAs (c :: text) (d :: content) where
  direct := List.forall_mem_cons.mpr ⟨isDirect, readsAs.direct⟩
  length_le := Nat.succ_le_succ readsAs.length_le
  apart same :=
    nullsApart_cons.mpr ⟨fun isNull => absurd isNull notNull, readsAs.apart (List.cons.inj same).2⟩

/-- A null character takes the octal digits behind it, so that the content gets shorter than the
text where there are any. -/
theorem null {digits : List Char} (areOctal : ∀ digit ∈ digits, isOctalDigit digit = true)
    (ends : digits.length < 2 → text.head?.any isOctalDigit = false)
    (readsAs : ReadsAs text content) : ReadsAs ('\x00' :: (digits ++ text)) (d :: content) where
  direct := by
    refine List.forall_mem_cons.mpr ⟨.inl (by decide), List.forall_mem_append.mpr ⟨?_, ?_⟩⟩
    · exact fun digit membership => isDirect_of_isOctalDigit (areOctal digit membership)
    · exact readsAs.direct
  length_le := by
    have shorter := readsAs.length_le
    simp only [List.length_cons, List.length_append]
    omega
  apart same := by
    have isContent : content = digits ++ text := (List.cons.inj same).2
    have noDigits : digits = [] := by
      have shorter := readsAs.length_le
      rw [isContent, List.length_append] at shorter
      exact List.length_eq_zero_iff.mp (by omega)
    subst noDigits
    exact nullsApart_cons.mpr ⟨fun _ => ends (by decide), readsAs.apart isContent⟩

end ReadsAs

theorem letters_spec : ∀ pair ∈ letters,
    pair.1 ≠ 'u' ∧ isOctalDigit pair.1 = false ∧ pair.2 ≠ '\x00' := by
  decide

/-- Characters that have to be written by their code point cannot be read, and a null character is
read as itself only where no octal digit follows. -/
theorem Body.readsAs {text content : List Char} (body : Body (rendered text) content) :
    ReadsAs text content := by
  induction length_eq : text.length using Nat.strongRecOn generalizing text content with
  | ind length inductionHypothesis =>
    subst length_eq
    cases text with
    | nil =>
      obtain ⟨-, rfl⟩ := of_quote body
      exact ⟨List.forall_mem_nil _, Nat.le_refl _, fun _ => nullsApart_nil⟩
    | cons c text =>
      have shorter : text.length < (c :: text).length := Nat.lt_succ_self _
      rw [rendered_cons] at body
      cases written c with
      | itself ordinary notNull isDirect escape_eq =>
        rw [escape_eq] at body
        obtain ⟨later, rfl, bodyLater⟩ := of_ordinary ordinary body
        exact (inductionHypothesis _ shorter bodyLater rfl).cons isDirect notNull
      | letter letter isLetter isDirect escape_eq =>
        obtain ⟨notCode, noDigit, notNull⟩ := letters_spec _ isLetter
        rw [escape_eq] at body
        rcases of_backslash body with ⟨d, later, -, rfl, bodyLater⟩ |
          ⟨digits, _, _, _, _, _, areOctal, _⟩ | ⟨isCode, _⟩
        · exact (inductionHypothesis _ shorter bodyLater rfl).cons isDirect notNull
        · rw [areOctal letter List.mem_cons_self] at noDigit
          cases noDigit
        · exact absurd isCode notCode
      | null isNull =>
        subst isNull
        rcases of_backslash body with ⟨d, _, isLetter, _⟩ |
          ⟨digits, behind, d, later, split, _, areOctal, ends, rfl, bodyLater⟩ | ⟨isCode, _⟩
        · cases (letters_spec _ isLetter).2.1
        · have areOctal := (List.forall_mem_cons.mp areOctal).2
          obtain ⟨text, rfl, rfl⟩ := rendered_eq_octal_append areOctal split
          rw [List.length_append] at shorter
          rw [head_rendered] at ends
          exact (inductionHypothesis _ (by omega) bodyLater rfl).null areOctal ends
        · cases isCode
      | codePoint notDirect escape_eq =>
        rw [escape_eq] at body
        rcases of_backslash body with ⟨d, _, isLetter, _⟩ | ⟨digits, _, _, _, _, _, areOctal, _⟩ |
          ⟨_, isHex⟩
        · exact absurd rfl (letters_spec _ isLetter).1
        · cases areOctal 'u' List.mem_cons_self
        · cases isHex

section Writing

variable {text : List Char}

theorem body_rendered (direct : ∀ c ∈ text, IsDirect c) (apart : NullsApart text) :
    Body (rendered text) text := by
  induction text with
  | nil => exact .close
  | cons c text inductionHypothesis =>
    obtain ⟨isDirect, direct⟩ := List.forall_mem_cons.mp direct
    obtain ⟨ends, apart⟩ := nullsApart_cons.mp apart
    have later := inductionHypothesis direct apart
    rw [rendered_cons]
    cases written c with
    | itself ordinary _ _ escape_eq =>
      rw [escape_eq]
      exact .item (.itself ordinary) later
    | letter letter isLetter _ escape_eq =>
      rw [escape_eq]
      exact .item (.letter isLetter) later
    | null isNull =>
      rw [← head_rendered] at ends
      subst isNull
      have stands : Stands (rendered text) ['\\', '0'] '\x00' :=
        .octal (by decide) (by decide) (List.forall_mem_singleton.mpr rfl) (fun _ => ends rfl) rfl
      exact .item stands later
    | codePoint notDirect _ => exact absurd isDirect notDirect

/-- Octal digits at the start of a text, as many as there are up to a limit. -/
theorem exists_octal_run (limit : Nat) (text : List Char) :
    ∃ digits later, text = digits ++ later ∧ digits.length ≤ limit ∧
      (∀ digit ∈ digits, isOctalDigit digit = true) ∧
      (digits.length < limit → later.head?.any isOctalDigit = false) := by
  induction limit generalizing text with
  | zero => exact ⟨[], text, rfl, Nat.le_refl _, List.forall_mem_nil _, fun fewer => by cases fewer⟩
  | succ limit inductionHypothesis =>
    cases text with
    | nil => exact ⟨[], [], rfl, Nat.zero_le _, List.forall_mem_nil _, fun _ => rfl⟩
    | cons c text =>
      by_cases isOctal : isOctalDigit c = true
      · obtain ⟨digits, later, rfl, few, areOctal, ends⟩ := inductionHypothesis text
        exact ⟨c :: digits, later, rfl, Nat.succ_le_succ few,
          List.forall_mem_cons.mpr ⟨isOctal, areOctal⟩,
          fun fewer => ends (Nat.lt_of_succ_lt_succ fewer)⟩
      · exact ⟨[], c :: text, rfl, Nat.zero_le _, List.forall_mem_nil _,
          fun _ => Bool.eq_false_iff.mpr isOctal⟩

theorem digitValue_lt {c : Char} (isOctal : isOctalDigit c = true) : digitValue c < 8 := by
  simp only [isOctalDigit, List.mem_cons, List.not_mem_nil, or_false, decide_eq_true_eq] at isOctal
  rcases isOctal with rfl | rfl | rfl | rfl | rfl | rfl | rfl | rfl <;> decide

theorem foldl_octal_lt {digits : List Char}
    (areOctal : ∀ digit ∈ digits, isOctalDigit digit = true) (start : Nat) :
    digits.foldl (fun value digit => 8 * value + digitValue digit) start <
      (start + 1) * 8 ^ digits.length := by
  induction digits generalizing start with
  | nil => simp
  | cons digit digits inductionHypothesis =>
    obtain ⟨isOctal, areOctal⟩ := List.forall_mem_cons.mp areOctal
    have small := digitValue_lt isOctal
    calc digits.foldl (fun value digit => 8 * value + digitValue digit)
          (8 * start + digitValue digit)
        < (8 * start + digitValue digit + 1) * 8 ^ digits.length :=
          inductionHypothesis areOctal _
      _ ≤ ((start + 1) * 8) * 8 ^ digits.length := Nat.mul_le_mul_right _ (by omega)
      _ = (start + 1) * 8 ^ (digits.length + 1) := by
          rw [Nat.mul_assoc, Nat.pow_succ, Nat.mul_comm 8]

theorem exists_octal_char {digits : List Char} (short : digits.length ≤ 3)
    (areOctal : ∀ digit ∈ digits, isOctalDigit digit = true) :
    ∃ c : Char, c.toNat = value 8 digits := by
  have bounded : value 8 digits < 512 := by
    have below := foldl_octal_lt areOctal 0
    have power : 8 ^ digits.length ≤ 8 ^ 3 := Nat.pow_le_pow_right (by decide) short
    rw [value]
    omega
  have isValid : (value 8 digits).isValidChar := .inl (by omega)
  refine ⟨Char.ofNat (value 8 digits), ?_⟩
  rw [Char.ofNat, dif_pos isValid]
  rfl

theorem exists_body_rendered (direct : ∀ c ∈ text, IsDirect c) :
    ∃ content, Body (rendered text) content := by
  induction length_eq : text.length using Nat.strongRecOn generalizing text with
  | ind length inductionHypothesis =>
    subst length_eq
    cases text with
    | nil => exact ⟨[], .close⟩
    | cons c text =>
      obtain ⟨isDirect, othersDirect⟩ := List.forall_mem_cons.mp direct
      have shorter : text.length < (c :: text).length := Nat.lt_succ_self _
      rw [rendered_cons]
      cases written c with
      | itself ordinary _ _ escape_eq =>
        obtain ⟨content, body⟩ := inductionHypothesis _ shorter othersDirect rfl
        rw [escape_eq]
        exact ⟨c :: content, .item (.itself ordinary) body⟩
      | letter letter isLetter _ escape_eq =>
        obtain ⟨content, body⟩ := inductionHypothesis _ shorter othersDirect rfl
        rw [escape_eq]
        exact ⟨c :: content, .item (.letter isLetter) body⟩
      | null isNull =>
        subst isNull
        obtain ⟨digits, later, rfl, few, areOctal, ends⟩ := exists_octal_run 2 text
        rw [List.length_append] at shorter
        obtain ⟨content, body⟩ :=
          inductionHypothesis _ (by omega) (List.forall_mem_append.mp othersDirect).2 rfl
        have short : ('0' :: digits).length ≤ 3 := Nat.succ_le_succ few
        have allOctal : ∀ digit ∈ '0' :: digits, isOctalDigit digit = true :=
          List.forall_mem_cons.mpr ⟨rfl, areOctal⟩
        obtain ⟨d, isValue⟩ := exists_octal_char short allOctal
        rw [← head_rendered] at ends
        have stands : Stands (rendered later) ('\\' :: '0' :: digits) d :=
          .octal (Nat.succ_pos _) short allOctal
            (fun fewer => ends (Nat.lt_of_succ_lt_succ fewer)) isValue
        have whole : Body ('\\' :: '0' :: digits ++ rendered later) (d :: content) :=
          .item stands body
        rw [rendered_append_octal areOctal]
        exact ⟨d :: content, whole⟩
      | codePoint notDirect _ => exact absurd isDirect notDirect

end Writing

/-- Whether what is written for a text is a literal at all, and whether it is one of the text. -/
theorem denotes_quoted_iff (text : String) :
    ((∃ content, Denotes (quoted text) content) ↔ ∀ c ∈ text.toList, IsDirect c) ∧
      (Denotes (quoted text) text ↔
        (∀ c ∈ text.toList, IsDirect c) ∧ NullsApart text.toList) := by
  have denotes_iff (content : String) :
      Denotes (quoted text) content ↔ Body (rendered text.toList) content.toList := by
    simp [Denotes, quoted, Quoted.chars, rendered]
  simp only [denotes_iff]
  refine ⟨⟨?_, ?_⟩, ?_, ?_⟩
  · rintro ⟨content, body⟩
    exact body.readsAs.direct
  · intro direct
    obtain ⟨content, body⟩ := exists_body_rendered direct
    exact ⟨String.ofList content, by rwa [String.toList_ofList]⟩
  · intro body
    exact ⟨body.readsAs.direct, body.readsAs.apart rfl⟩
  · rintro ⟨direct, apart⟩
    exact body_rendered direct apart

end StringLiteral

open StringLiteral in
/-- A string and the message of an assertion are printed as one literal. It is well formed exactly
when every character of the text is shown as itself or has a letter or a digit of its own, and it
stands for the text exactly when besides no null character is followed by an octal digit. -/
theorem string_literal_denotes_iff (text : String) :
    ∃ literal, (Expr.string text).print = .ok literal ∧
      (∀ {σ : Type} (e : Emitter σ) (env : Env) (condition : Expr) (printed : String),
        condition.print = .ok printed → e.emit (.assert condition text) env =
          e.line ("assert(" ++ printed ++ " && " ++ literal ++ ");")) ∧
      ((∃ content, Denotes literal content) ↔ ∀ c ∈ text.toList, IsDirect c) ∧
      (Denotes literal text ↔ (∀ c ∈ text.toList, IsDirect c) ∧ NullsApart text.toList) := by
  obtain ⟨wellFormed_iff, denotes_iff⟩ := denotes_quoted_iff text
  refine ⟨quoted text, rfl, ?_, wellFormed_iff, denotes_iff⟩
  intro σ e env condition printed isPrinted
  rw [Emitter.emit, isPrinted]
  rfl

def escapedText : String := "é\t\"\\\x008"

open StringLiteral in
theorem string_literal_denotes_iff_escapedText :
    ∃ literal, (Expr.string escapedText).print = .ok literal ∧
      (Emitter.plain .standard 1).emit (.assert (.var "ok" .default) escapedText) .empty =
        (Emitter.plain .standard 1).line ("assert(" ++ "ok" ++ " && " ++ literal ++ ");") ∧
      Denotes literal escapedText := by
  have isText : escapedText.toList = 'é' :: ['\t', '"', '\\', '\x00', '8'] := by decide
  have printable : isUnprintable 'é' = false := by
    rw [isUnprintable, ← Array.any_toList]
    decide +kernel
  have direct : ∀ c ∈ escapedText.toList, IsDirect c := by
    have ascii : (['\t', '"', '\\', '\x00', '8'].all fun c => decide (IsDirect c)) = true := by
      decide +kernel
    rw [isText, List.forall_mem_cons]
    refine ⟨.inr ⟨by decide, by decide, fun _ => printable⟩, ?_⟩
    simpa only [List.all_eq_true, decide_eq_true_eq] using ascii
  have apart : NullsApart escapedText.toList := by
    simp [isText, nullsApart_cons, nullsApart_nil, isOctalDigit]
  obtain ⟨literal, isPrinted, asserted, -, denotes_iff⟩ := string_literal_denotes_iff escapedText
  have isName : identifier "ok" = "ok" := by decide
  have isCondition : (Expr.var "ok" .default).print = .ok "ok" := congrArg Except.ok isName
  exact ⟨literal, isPrinted, asserted _ _ _ _ isCondition, denotes_iff.mpr ⟨direct, apart⟩⟩

open StringLiteral in
/-- The literal of a no-break space is malformed, and that of a null character before an octal digit
stands for another text. -/
theorem literal_loses_text :
    (Expr.string "5\u00a0mm").print = .ok "\"5\\u\x7ba0\x7dmm\"" ∧
      (¬ ∃ content, Denotes "\"5\\u\x7ba0\x7dmm\"" content) ∧
      (Expr.string "\x001").print = .ok "\"\\01\"" ∧
      Denotes "\"\\01\"" "\x01" ∧ ¬ Denotes "\"\\01\"" "\x001" := by
  have isSpace : quoted "5\u00a0mm" = "\"5\\u\x7ba0\x7dmm\"" := by decide +kernel
  have isNull : quoted "\x001" = "\"\\01\"" := by decide +kernel
  have noLiteral : ¬ ∃ content, Denotes (quoted "5\u00a0mm") content := by
    rw [(denotes_quoted_iff _).1]
    intro direct
    exact absurd (direct '\u00a0' (by decide)) (by decide +kernel)
  have otherText : ¬ Denotes (quoted "\x001") "\x001" := by
    rw [(denotes_quoted_iff _).2]
    rintro ⟨-, apart⟩
    exact absurd (apart '1' (by decide)) (by decide)
  rw [isSpace] at noLiteral
  rw [isNull] at otherText
  have stands : Stands ['"'] ['\\', '0', '1'] '\x01' :=
    .octal (by decide) (by decide) (List.all_eq_true.mp rfl) (fun _ => rfl) rfl
  exact ⟨congrArg _ isSpace, noLiteral, congrArg _ isNull,
    ⟨['\\', '0', '1', '"'], by decide, .item stands .close⟩, otherText⟩

end StreamSynth
