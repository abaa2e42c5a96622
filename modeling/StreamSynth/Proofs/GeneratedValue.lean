import StreamSynth.Emit.Expr
import StreamSynth.Proofs.ConstantFolding
import StreamSynth.Proofs.DisplayReading

/-!
# The value of a generated expression

A printed expression of integers is read as the language of the generated code reads it, on exact
integers: a quotient is rounded towards zero, a remainder has the sign of the dividend, and a
conversion reduces into the range of the type. What is printed for an arithmetic expression is read
as its parts are, whatever text follows.
-/

namespace StreamSynth

def BinaryOp.generated? (op : BinaryOp) (x y : Int) : Option Int :=
  match op with
  | div => if y = 0 then none else some (x.tdiv y)
  | mod => if y = 0 then none else some (x.tmod y)
  | op => op.result? x y

def BinaryOp.generatedOf (op : BinaryOp) (left right : Option Int) : Option Int := do
  let x ← left
  let y ← right
  op.generated? x y

def ScalarType.represent (t : ScalarType) (value : Int) : Int :=
  if t = .bool then (if value = 0 then 0 else 1)
  else t.least + (value - t.least) % t.modulus

def ScalarType.IsNamedInteger (t : ScalarType) : Prop :=
  t.IsNamed ∧ (t.kind = .int ∨ t.kind = .uint)

namespace Generated

def strip (word : String) (text : List Char) : Option (List Char) :=
  if word.toList.isPrefixOf text then some (text.drop word.toList.length) else none

/-- What stands in the table beside the word that the text begins with, and the rest behind it. -/
def entry {α : Type} (table : List (String × α)) (text : List Char) : Option (α × List Char) :=
  table.findSome? fun (word, meaning) => (strip word text).map fun rest => (meaning, rest)

def conversions : List (String × ScalarType) :=
  [("((bool)(", .bool), ("((int8_t)(", .int 8), ("((int16_t)(", .int 16),
   ("((int32_t)(", .int 32), ("((int64_t)(", .int 64), ("((uint8_t)(", .uint 8),
   ("((uint16_t)(", .uint 16), ("((uint32_t)(", .uint 32), ("((uint64_t)(", .uint 64)]

def calls : List (String × BinaryOp) := [("std::min(", .min), ("std::max(", .max)]

def signs : List (String × BinaryOp) :=
  [(" + ", .add), (" - ", .sub), (" * ", .mul), (" / ", .div), (" % ", .mod)]

def natural (text : List Char) : Option (Nat × List Char) :=
  let digits := text.takeWhile Char.isDigit
  if digits.isEmpty then none
  else some (Nat.ofDigitChars 10 digits 0, text.dropWhile Char.isDigit)

def literal : List Char → Option (Int × List Char)
  | '-' :: text => (natural text).map fun (n, rest) => (-n, rest)
  | text => (natural text).map fun (n, rest) => (n, rest)

def converted (t : ScalarType) (operand : List Char → Option (Int × List Char))
    (text : List Char) : Option (Int × List Char) := do
  let (value, rest) ← operand text
  let rest ← strip "))" rest
  return (t.represent value, rest)

def operation (between : List Char → Option (BinaryOp × List Char))
    (operand : List Char → Option (Int × List Char)) (text : List Char) :
    Option (Int × List Char) := do
  let (x, rest) ← operand text
  let (op, rest) ← between rest
  let (y, rest) ← operand rest
  let rest ← strip ")" rest
  let value ← op.generated? x y
  return (value, rest)

def comma (op : BinaryOp) (text : List Char) : Option (BinaryOp × List Char) :=
  entry [(", ", op)] text

/-- Reads an expression at the front of a text, nested up to the given depth. -/
def read : Nat → List Char → Option (Int × List Char)
  | 0, _ => none
  | depth + 1, text =>
    match entry conversions text with
    | some (t, rest) => converted t (read depth) rest
    | none =>
      match entry calls text with
      | some (op, rest) => operation (comma op) (read depth) rest
      | none =>
        match text with
        | '(' :: rest => operation (entry signs) (read depth) rest
        | text => literal text

/-- The value of a text that is an expression of integers. No expression is nested deeper than it
is long. -/
def value? (text : String) : Option Int :=
  match read text.toList.length text.toList with
  | some (value, []) => some value
  | _ => none

end Generated

def Expr.generatedValue? (e : Expr) : Option Int :=
  match e.print with
  | .ok text => Generated.value? text
  | .error _ => none

namespace Generated

section Tables

variable {text rest : List Char} {word : String} {op : BinaryOp}

theorem strip_append (word : String) (rest : List Char) :
    strip word (word.toList ++ rest) = some rest := by
  simp [strip]

theorem entry_eq_none_iff {α : Type} {table : List (String × α)} :
    entry table text = none ↔ ∀ word meaning, (word, meaning) ∈ table → ¬ word.toList <+: text := by
  simp [entry, strip]

def apart (one other : String) : Bool :=
  !one.toList.isPrefixOf other.toList && !other.toList.isPrefixOf one.toList

/-- At most one word of such a table begins a text, so its entry is the one found. -/
theorem entry_append {α : Type} {table : List (String × α)} {meaning : α}
    (areApart : table.Pairwise fun one other => apart one.1 other.1 = true)
    (membership : (word, meaning) ∈ table) (rest : List Char) :
    entry table (word.toList ++ rest) = some (meaning, rest) := by
  induction areApart with
  | nil => cases membership
  | @cons first table others _ inductionHypothesis =>
    rcases List.mem_cons.mp membership with isFirst | later
    · simp [entry, ← isFirst, strip_append]
    · have separate := others _ later
      have notFirst : strip first.1 (word.toList ++ rest) = none := by
        rw [strip, if_neg]
        intro begins
        have both := List.prefix_or_prefix_of_prefix (List.isPrefixOf_iff_prefix.mp begins)
          (List.prefix_append word.toList rest)
        simp only [apart, Bool.and_eq_true, Bool.not_eq_true', ← Bool.not_eq_true,
          List.isPrefixOf_iff_prefix] at separate
        rcases both with before | behind
        · exact separate.1 before
        · exact separate.2 behind
      rw [← inductionHypothesis later]
      simp [entry, notFirst]

def startsType (c : Char) : Bool := c = 'b' || c = 'i' || c = 'u'

theorem conversions_start {t : ScalarType} (membership : (word, t) ∈ conversions) :
    ∃ c more, word.toList = '(' :: '(' :: c :: more ∧ startsType c = true := by
  simp only [conversions, List.mem_cons, Prod.mk.injEq, List.not_mem_nil, or_false] at membership
  rcases membership with ⟨rfl, -⟩ | ⟨rfl, -⟩ | ⟨rfl, -⟩ | ⟨rfl, -⟩ | ⟨rfl, -⟩ | ⟨rfl, -⟩ |
    ⟨rfl, -⟩ | ⟨rfl, -⟩ | ⟨rfl, -⟩
  all_goals exact ⟨_, _, rfl, rfl⟩

theorem entry_conversions_eq_none
    (other : ∀ c more, text = '(' :: '(' :: c :: more → startsType c = false) :
    entry conversions text = none := by
  rw [entry_eq_none_iff]
  rintro word t membership ⟨rest, rfl⟩
  obtain ⟨c, more, isWord, starts⟩ := conversions_start membership
  have notType := other c (more ++ rest) (by simp [isWord])
  rw [starts] at notType
  cases notType

theorem starts_of_mem {α : Type} {table : List (String × α)} {meaning : α} {c : Char}
    (start : table.all (fun row => row.1.toList.head? = some c) = true)
    (membership : (word, meaning) ∈ table) : ∃ more, word.toList = c :: more := by
  have isHead : word.toList.head? = some c := by simpa using List.all_eq_true.mp start _ membership
  exact List.head?_eq_some_iff.mp isHead

theorem entry_calls_eq_none (other : text.head? ≠ some 's') : entry calls text = none := by
  rw [entry_eq_none_iff]
  rintro word op membership ⟨rest, rfl⟩
  obtain ⟨more, isWord⟩ := starts_of_mem (c := 's') (by decide) membership
  simp [isWord] at other

end Tables

def EndsNumber (rest : List Char) : Prop := rest.head?.any Char.isDigit = false

/-- The text starts as an expression does: with no letter of a type, nor with one behind a
parenthesis. So a parenthesis before it does not make it a conversion. -/
def Opens (text : List Char) : Prop :=
  ∃ c more, text = c :: more ∧ startsType c = false ∧
    (c = '(' → ∃ d further, more = d :: further ∧ startsType d = false)

/-- The text is read as an expression of this value, whatever follows it. -/
structure Reads (text : List Char) (value : Option Int) : Prop where
  opens : Opens text
  reads : ∀ {depth rest}, text.length ≤ depth → EndsNumber rest →
    read depth (text ++ rest) = value.map fun v => (v, rest)

theorem Opens.entry_conversions {text : List Char} (opens : Opens text) (rest : List Char) :
    entry conversions ('(' :: (text ++ rest)) = none := by
  obtain ⟨c, more, rfl, -, behind⟩ := opens
  apply entry_conversions_eq_none
  intro c' more' isText
  simp only [List.cons_append, List.cons.injEq, true_and] at isText
  obtain ⟨d, further, rfl, notType⟩ := behind isText.1
  simp only [List.cons_append, List.cons.injEq] at isText
  rwa [← isText.2.1]

section Literals

variable {c : Char} {more rest : List Char}

theorem natural_toDigits (n : Nat) (ends : EndsNumber rest) :
    natural (Nat.toDigits 10 n ++ rest) = some (n, rest) := by
  have isValue : Nat.ofDigitChars 10 (Nat.toDigits 10 n) 0 = n := Nat.ofDigitChars_ten_toDigits
  obtain ⟨first, more, isText, digit, areDigits⟩ := toDigits_eq_cons n
  obtain ⟨taken, left⟩ := span_kind (List.forall_mem_cons.mpr ⟨digit, areDigits⟩) ends
  rw [isText] at isValue ⊢
  rw [List.cons_append] at taken left ⊢
  simp [natural, taken, left, isValue]

theorem read_literal (depth : Nat) (isNumber : c = '-' ∨ c.isDigit = true) :
    read (depth + 1) (c :: more) = literal (c :: more) := by
  have notParen : c ≠ '(' := by
    rintro rfl
    revert isNumber
    decide
  have notLetter : c ≠ 's' := by
    rintro rfl
    revert isNumber
    decide
  have noConversion : entry conversions (c :: more) = none :=
    entry_conversions_eq_none fun _ _ isText => absurd (List.cons.inj isText).1 notParen
  have noCall : entry calls (c :: more) = none := entry_calls_eq_none (by simpa using notLetter)
  simp only [read, noConversion, noCall]
  split
  · next isParen => exact absurd (List.cons.inj isParen).1 notParen
  · rfl

theorem literal_of_isDigit (digit : c.isDigit = true) :
    literal (c :: more) = (natural (c :: more)).map fun (n, rest) => ((n : Int), rest) := by
  unfold literal
  split
  · next isMinus =>
    cases isMinus
    cases digit
  · rfl

theorem opens_of_number (isNumber : c = '-' ∨ c.isDigit = true) : Opens (c :: more) := by
  refine ⟨c, more, rfl, ?_, ?_⟩
  · rcases isNumber with rfl | digit
    · rfl
    · simp only [startsType, Bool.or_eq_false_iff, decide_eq_false_iff_not]
      refine ⟨⟨?_, ?_⟩, ?_⟩
      all_goals
        rintro rfl
        cases digit
  · rintro rfl
    rcases isNumber with isMinus | digit
    · cases isMinus
    · cases digit

theorem reads_natural (n : Nat) : Reads (Nat.toDigits 10 n) (some n) := by
  obtain ⟨first, more, areDigits, digit, -⟩ := toDigits_eq_cons n
  constructor
  · rw [areDigits]
    exact opens_of_number (.inr digit)
  · intro depth rest fits ends
    have isNatural := natural_toDigits n ends
    rw [areDigits] at fits isNatural ⊢
    cases depth with
    | zero => cases fits
    | succ depth =>
      rw [List.cons_append] at isNatural ⊢
      rw [read_literal depth (.inr digit), literal_of_isDigit digit, isNatural]
      rfl

theorem reads_negative (n : Nat) : Reads ('-' :: Nat.toDigits 10 n) (some (-n)) where
  opens := opens_of_number (.inl rfl)
  reads := by
    intro depth rest fits ends
    cases depth with
    | zero => cases fits
    | succ depth =>
      rw [List.cons_append, read_literal depth (.inl rfl)]
      simp [literal, natural_toDigits n ends]

theorem reads_toString (n : Int) : Reads (toString n).toList (some n) := by
  cases n with
  | ofNat n =>
    change Reads n.repr.toList _
    rw [Nat.toList_repr]
    exact reads_natural n
  | negSucc n =>
    change Reads ("-" ++ (n + 1).repr).toList _
    rw [Int.negSucc_eq]
    simpa using reads_negative (n + 1)

end Literals

namespace Reads

variable {a b : List Char} {x y : Option Int} {op : BinaryOp} {word : String}

theorem conversion {t : ScalarType} (isConversion : (word, t) ∈ conversions) (operand : Reads a x) :
    Reads (word.toList ++ (a ++ "))".toList)) (x.map t.represent) := by
  obtain ⟨c, more, isWord, -⟩ := conversions_start isConversion
  constructor
  · rw [isWord]
    exact ⟨'(', _, rfl, rfl, fun _ => ⟨'(', _, rfl, rfl⟩⟩
  · intro depth rest fits ends
    cases depth with
    | zero => simp [isWord] at fits
    | succ depth =>
      have shorter : a.length ≤ depth := by
        simp only [isWord, List.length_append, List.length_cons] at fits
        omega
      have isText : word.toList ++ (a ++ "))".toList) ++ rest =
        word.toList ++ (a ++ ("))".toList ++ rest)) := by simp only [List.append_assoc]
      have inner : read depth (a ++ ("))".toList ++ rest)) =
          x.map fun v => (v, "))".toList ++ rest) :=
        operand.reads shorter rfl
      simp only [isText, read, entry_append (by decide) isConversion, converted, inner]
      cases x with
      | none => rfl
      | some value =>
        simp only [Option.map_some, Option.bind_eq_bind, Option.bind_some, strip_append]
        rfl

/-- Two operands around a separator that tells the operation. -/
theorem operands {between : List Char → Option (BinaryOp × List Char)} {depth : Nat}
    (left : Reads a x) (right : Reads b y)
    (tells : ∀ rest, between (word.toList ++ rest) = some (op, rest))
    (separates : EndsNumber word.toList) (nonempty : word.toList ≠ [])
    (leftFits : a.length ≤ depth) (rightFits : b.length ≤ depth) (rest : List Char) :
    operation between (read depth) (a ++ (word.toList ++ (b ++ (")".toList ++ rest)))) =
      (op.generatedOf x y).map fun v => (v, rest) := by
  obtain ⟨c, more, isWord⟩ := List.exists_cons_of_ne_nil nonempty
  have leftReads : read depth (a ++ (word.toList ++ (b ++ (")".toList ++ rest)))) =
      x.map fun v => (v, word.toList ++ (b ++ (")".toList ++ rest))) := by
    refine left.reads leftFits ?_
    rw [isWord] at separates ⊢
    exact separates
  have rightReads : read depth (b ++ (")".toList ++ rest)) =
      y.map fun v => (v, ")".toList ++ rest) := right.reads rightFits rfl
  rw [operation, leftReads]
  cases x with
  | none => rfl
  | some x =>
    simp only [Option.map_some, Option.bind_eq_bind, Option.bind_some, tells, rightReads]
    cases y with
    | none => rfl
    | some y =>
      simp only [Option.map_some, Option.bind_some, strip_append, BinaryOp.generatedOf,
        Option.bind_eq_bind]
      cases op.generated? x y <;> rfl

theorem signed (isSign : (word, op) ∈ signs) (left : Reads a x) (right : Reads b y) :
    Reads ('(' :: (a ++ (word.toList ++ (b ++ ")".toList)))) (op.generatedOf x y) := by
  obtain ⟨more, isWord⟩ := starts_of_mem (c := ' ') (by decide) isSign
  constructor
  · obtain ⟨c, more, rfl, notType, -⟩ := left.opens
    exact ⟨'(', _, rfl, rfl, fun _ => ⟨c, _, rfl, notType⟩⟩
  · intro depth rest fits ends
    cases depth with
    | zero => simp at fits
    | succ depth =>
      simp only [List.length_cons, List.length_append] at fits
      have noConversion := left.opens.entry_conversions
        (word.toList ++ (b ++ (")".toList ++ rest)))
      have noCall :
          entry calls ('(' :: (a ++ (word.toList ++ (b ++ (")".toList ++ rest))))) = none :=
        entry_calls_eq_none (by simp)
      simp only [List.cons_append, List.append_assoc, read, noConversion, noCall]
      have separates : EndsNumber word.toList := by
        rw [isWord]
        rfl
      exact left.operands right (entry_append (by decide) isSign) separates (by simp [isWord])
        (by omega) (by omega) rest

theorem call (isCall : (word, op) ∈ calls) (left : Reads a x) (right : Reads b y) :
    Reads (word.toList ++ (a ++ (", ".toList ++ (b ++ ")".toList)))) (op.generatedOf x y) := by
  obtain ⟨more, isWord⟩ := starts_of_mem (c := 's') (by decide) isCall
  constructor
  · rw [isWord]
    exact ⟨'s', _, rfl, rfl, fun isParen => by cases isParen⟩
  · intro depth rest fits ends
    cases depth with
    | zero => simp [isWord] at fits
    | succ depth =>
      simp only [isWord, List.length_cons, List.length_append] at fits
      have noConversion (text : List Char) : entry conversions (word.toList ++ text) = none := by
        apply entry_conversions_eq_none
        rw [isWord]
        rintro c more ⟨⟩
      simp only [List.append_assoc, read, noConversion, entry_append (by decide) isCall]
      have separates : EndsNumber ", ".toList := rfl
      exact left.operands right (entry_append (List.pairwise_singleton _ _) List.mem_cons_self)
        separates (by decide) (by omega) (by omega) rest

theorem value?_eq {text : String} {value : Option Int} (reads : Reads text.toList value) :
    value? text = value := by
  have ends : EndsNumber [] := rfl
  have whole : read text.toList.length text.toList = value.map fun v => (v, []) := by
    simpa using reads.reads (Nat.le_refl _) ends
  rw [value?, whole]
  cases value <;> rfl

end Reads

end Generated

/-- A named integer type has a name in the generated code that is its own. -/
theorem ScalarType.IsNamedInteger.mem_conversions {t : ScalarType} (isInteger : t.IsNamedInteger) :
    ("((" ++ t.generated ++ ")(", t) ∈ Generated.conversions := by
  obtain ⟨⟨word, isKeyword⟩, kind⟩ := isInteger
  obtain ⟨before, after, areKeywords, -⟩ := List.lookup_eq_some_iff.mp isKeyword
  have every : ∀ entry ∈ keywords, entry.2.kind = .int ∨ entry.2.kind = .uint →
      ("((" ++ entry.2.generated ++ ")(", entry.2) ∈ Generated.conversions := by decide
  exact every (word, t) (by simp [areKeywords]) kind

theorem BinaryOp.sign?_cases {op : BinaryOp} (arithmetic : op.isLogical = false) :
    (∃ sign, op.sign? = some sign ∧ (" " ++ sign ++ " ", op) ∈ Generated.signs) ∨
      op.sign? = none ∧
        ((if op = .min then "std::min(" else "std::max("), op) ∈ Generated.calls := by
  cases op with
  | add => exact .inl ⟨_, rfl, by decide⟩
  | sub => exact .inl ⟨_, rfl, by decide⟩
  | mul => exact .inl ⟨_, rfl, by decide⟩
  | div => exact .inl ⟨_, rfl, by decide⟩
  | mod => exact .inl ⟨_, rfl, by decide⟩
  | min => exact .inr ⟨rfl, by decide⟩
  | max => exact .inr ⟨rfl, by decide⟩
  | _ => cases arithmetic

namespace Expr

open Generated

def PrintsValue (e : Expr) (value : Option Int) : Prop :=
  ∃ text, e.print = .ok text ∧ Reads text.toList value

namespace PrintsValue

variable {e a b : Expr} {value x y : Option Int}

theorem generatedValue?_eq (prints : e.PrintsValue value) : e.generatedValue? = value := by
  obtain ⟨text, isText, reads⟩ := prints
  rw [generatedValue?, isText]
  exact reads.value?_eq

theorem int (word : Int64) (t : ScalarType) : (Expr.int word t).PrintsValue (some word.toInt) :=
  ⟨_, rfl, reads_toString _⟩

theorem cast {t : ScalarType} (isInteger : t.IsNamedInteger) (operand : a.PrintsValue x) :
    (Expr.cast t a).PrintsValue (x.map t.represent) := by
  obtain ⟨text, isText, reads⟩ := operand
  refine ⟨"((" ++ t.generated ++ ")(" ++ text ++ "))", ?_, ?_⟩
  · rw [print, isText]
    rfl
  · have converts := reads.conversion isInteger.mem_conversions
    simpa only [String.toList_append, List.append_assoc] using converts

theorem binary {op : BinaryOp} (arithmetic : op.isLogical = false) (left : a.PrintsValue x)
    (right : b.PrintsValue y) : (Expr.binary op a b).PrintsValue (op.generatedOf x y) := by
  obtain ⟨leftText, isLeft, leftReads⟩ := left
  obtain ⟨rightText, isRight, rightReads⟩ := right
  refine ⟨printBinary op leftText rightText, ?_, ?_⟩
  · rw [print, isLeft, isRight]
    rfl
  · rcases BinaryOp.sign?_cases arithmetic with ⟨sign, isSign, membership⟩ | ⟨noSign, membership⟩
    · have reads := leftReads.signed membership rightReads
      simpa [printBinary, isSign] using reads
    · have reads := leftReads.call membership rightReads
      simpa [printBinary, noSign] using reads

end PrintsValue

variable {a b : Expr}

theorem Arithmetic.printsValue {e : Expr} (arithmetic : e.Arithmetic ScalarType.IsNamedInteger) :
    e.PrintsValue e.generatedValue? := by
  have exists_value : ∃ value, e.PrintsValue value := by
    induction arithmetic with
    | int => exact ⟨_, .int _ _⟩
    | binary isArithmetic _ _ left right =>
      obtain ⟨x, left⟩ := left
      obtain ⟨y, right⟩ := right
      exact ⟨_, left.binary isArithmetic right⟩
    | cast isInteger _ operand =>
      obtain ⟨x, operand⟩ := operand
      exact ⟨_, operand.cast isInteger⟩
  obtain ⟨value, prints⟩ := exists_value
  rwa [prints.generatedValue?_eq]

@[simp] theorem generatedValue?_int (word : Int64) (t : ScalarType) :
    (int word t).generatedValue? = some word.toInt :=
  (PrintsValue.int word t).generatedValue?_eq

theorem generatedValue?_binary {op : BinaryOp} (isArithmetic : op.isLogical = false)
    (left : a.Arithmetic ScalarType.IsNamedInteger)
    (right : b.Arithmetic ScalarType.IsNamedInteger) :
    (binary op a b).generatedValue? = op.generatedOf a.generatedValue? b.generatedValue? :=
  (PrintsValue.binary isArithmetic left.printsValue right.printsValue).generatedValue?_eq

theorem generatedValue?_cast {t : ScalarType} (isInteger : t.IsNamedInteger)
    (operand : a.Arithmetic ScalarType.IsNamedInteger) :
    (cast t a).generatedValue? = a.generatedValue?.map t.represent :=
  (operand.printsValue.cast isInteger).generatedValue?_eq

end Expr

end StreamSynth
