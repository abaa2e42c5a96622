import Mathlib.Data.List.Forall2
import StreamSynth.Proofs.GeneratedValue
import StreamSynth.Proofs.OneLine
import StreamSynth.Proofs.QuotedText

/-!
# Printed expressions are uniquely readable

What an expression of the generated code computes can be read off its text: every operation stands
between parentheses of its own, and the characters behind an opening parenthesis tell a conversion
and an address from an operation on two or three operands. The reading of an expression is the
expression without what is not printed.
-/

namespace StreamSynth

/-- What an expression of the generated code says. Constants, names, loads and calls have no type
there, and a type is known by its text. -/
inductive Reading where
  | int (value : Int)
  | float (value : Binary64) (type : ScalarType)
  | string (text : String)
  | var (name : String)
  | cast (type : String) (arg : Reading)
  | binary (op : BinaryOp) (left right : Reading)
  | not (arg : Reading)
  | select (condition whenTrue whenFalse : Reading)
  | load (name : String) (index : Reading)
  /-- The address of an element of an array that is taken to have the type. -/
  | address (type name : String) (index : Reading)
  | call (name : String) (args : List Reading)

namespace Expr

mutual

def reading : Expr → Reading
  | int value _ => .int value.toInt
  | float value type => .float value type
  | string text => .string text
  | var name _ => .var name
  | cast type arg => .cast type.generated arg.reading
  | binary op left right => .binary op left.reading right.reading
  | not arg => .not arg.reading
  | select condition whenTrue whenFalse =>
    .select condition.reading whenTrue.reading whenFalse.reading
  | load name _ index => .load name index.reading
  | call name _ args =>
    if name = addressOf then
      match args with
      | [load source type index] => .address type.generated source index.reading
      | args => .call name (readings args)
    else .call name (readings args)

def readings : List Expr → List Reading
  | [] => []
  | arg :: rest => arg.reading :: readings rest

end

theorem reading_call {name : String} (notAddress : name ≠ addressOf) (type : ScalarType)
    (args : List Expr) : (call name type args).reading = .call name (readings args) := by
  unfold reading
  rw [if_neg notAddress]

/-- Expressions without floating-point constants whose names are printed as they are. -/
inductive Legible : Expr → Prop
  | int {value type} : Legible (.int value type)
  | string {text} : Legible (.string text)
  | var {name type} : name ≠ "" → identifier name = name → Legible (.var name type)
  | cast {type arg} : Legible arg → Legible (.cast type arg)
  | binary {op left right} : Legible left → Legible right → Legible (.binary op left right)
  | not {arg} : Legible arg → Legible (.not arg)
  | select {condition whenTrue whenFalse} : Legible condition → Legible whenTrue →
      Legible whenFalse → Legible (.select condition whenTrue whenFalse)
  | load {name type index} : name ≠ "" → identifier name = name → Legible index →
      Legible (.load name type index)
  | call {name type args} : name ≠ "" → identifier name = name → (∀ arg ∈ args, Legible arg) →
      Legible (.call name type args)

end Expr

namespace Reading

open Generated (strip entry)

inductive TypeUse where
  | conversion (type : String)
  | address (type : String)

/-- What closes a type that begins with a word. The only type of more than a word is the one of
addresses. -/
def typeEnds : List (String × (String → TypeUse)) :=
  [(")(", .conversion), (" *)(", fun word => .conversion (word ++ " *")),
    (" * *)", fun word => .address (word ++ " *")), (" *)", .address)]

def word (text : List Char) : String := String.ofList (text.takeWhile isIdentifierChar)

def afterWord (text : List Char) : List Char := text.dropWhile isIdentifierChar

def typeUse? : List Char → Option (TypeUse × List Char)
  | '(' :: text => (entry typeEnds (afterWord text)).map fun (use, rest) => (use (word text), rest)
  | _ => none

def separators : List (String × Option BinaryOp) :=
  [(" ? ", none), (" + ", some .add), (" - ", some .sub), (" * ", some .mul), (" / ", some .div),
    (" % ", some .mod), (" == ", some .eq), (" != ", some .ne), (" < ", some .lt),
    (" <= ", some .le), (" > ", some .gt), (" >= ", some .ge), (" && ", some .and),
    (" || ", some .or)]

def extrema : List (String × BinaryOp) := [("::min(", .min), ("::max(", .max)]

section Parts

variable (operand : List Char → Option (Reading × List Char)) (text : List Char)

def enclosed (closing : String) (result : Reading → Reading) : Option (Reading × List Char) := do
  let (part, rest) ← operand text
  let rest ← strip closing rest
  return (result part, rest)

def pair (between closing : String) (result : Reading → Reading → Reading) :
    Option (Reading × List Char) := do
  let (first, rest) ← operand text
  let rest ← strip between rest
  enclosed operand rest closing (result first)

def continued (first : Reading) : Option BinaryOp → Option (Reading × List Char)
  | some op => enclosed operand text ")" (.binary op first)
  | none => pair operand text " : " ")" (.select first)

def operation : Option (Reading × List Char) := do
  let (first, rest) ← operand text
  let (op?, rest) ← entry separators rest
  continued operand rest first op?

def grouped : Option (Reading × List Char) :=
  match typeUse? text with
  | some (.conversion type, rest) => enclosed operand rest "))" (.cast type)
  | some (.address type, rest) => do
    let rest' ← strip " + " (afterWord rest)
    enclosed operand rest' ")" (.address type (word rest))
  | none => operation operand text

/-- At least one argument and the closing parenthesis, with at most as many arguments as told. -/
def arguments : Nat → List Char → Option (List Reading × List Char)
  | 0, _ => none
  | limit + 1, text => do
    let (first, rest) ← operand text
    match strip ", " rest with
    | some rest => do
      let (more, rest) ← arguments limit rest
      return (first :: more, rest)
    | none => do
      let rest ← strip ")" rest
      return ([first], rest)

def argumentRow (limit : Nat) : Option (List Reading × List Char) :=
  match strip ")" text with
  | some rest => some ([], rest)
  | none => arguments operand limit text

def named (limit : Nat) : Option (Reading × List Char) :=
  match afterWord text with
  | '[' :: rest => enclosed operand rest "]" (.load (word text))
  | ':' :: rest => do
    let (op, rest) ← entry extrema (':' :: rest)
    pair operand rest ", " ")" (.binary op)
  | '(' :: rest => (argumentRow operand rest limit).map fun (args, rest) =>
      (.call (word text) args, rest)
  | rest => some (.var (word text), rest)

end Parts

/-- Reads an expression at the front of a text, nested up to the given depth. -/
def read : Nat → List Char → Option (Reading × List Char)
  | 0, _ => none
  | depth + 1, text =>
    match text with
    | '"' :: rest => (Quoted.body depth rest).map fun (chars, rest) =>
        (.string (String.ofList chars), rest)
    | '!' :: rest => do
      let rest ← strip "(" rest
      enclosed (read depth) rest ")" .not
    | '(' :: rest => grouped (read depth) rest
    | text =>
      if text.head?.any fun c => c = '-' || c.isDigit then
        (Generated.literal text).map fun (value, rest) => (.int value, rest)
      else named (read depth) text depth

/-- What can follow an expression: no character that would go on with a name or a number, or take
a name for a call or an array. -/
def Ends (rest : List Char) : Prop :=
  rest.head?.all (fun c => c = ')' || c = ']' || c = ',' || c = ' ') = true

section Words

variable {chars rest : List Char}

theorem Ends.cases (ends : Ends rest) :
    rest = [] ∨ ∃ c more, rest = c :: more ∧ (c = ')' ∨ c = ']' ∨ c = ',' ∨ c = ' ') := by
  cases rest with
  | nil => exact .inl rfl
  | cons c more => exact .inr ⟨c, more, rfl, by simpa [Ends, or_assoc] using ends⟩

theorem Ends.endsNumber (ends : Ends rest) : Generated.EndsNumber rest := by
  rcases ends.cases with rfl | ⟨c, more, rfl, rfl | rfl | rfl | rfl⟩ <;> rfl

theorem Ends.notLegal (ends : Ends rest) : rest.head?.any isIdentifierChar = false := by
  rcases ends.cases with rfl | ⟨c, more, rfl, rfl | rfl | rfl | rfl⟩ <;> rfl

theorem span_word (areLegal : ∀ c ∈ chars, isIdentifierChar c = true) (rest : List Char)
    (ends : rest.head?.any isIdentifierChar = false) :
    word (chars ++ rest) = String.ofList chars ∧ afterWord (chars ++ rest) = rest := by
  obtain ⟨isWord, behind⟩ := span_kind areLegal ends
  exact ⟨congrArg String.ofList isWord, behind⟩

end Words

section Types

variable {text rest : List Char}

theorem typeUse?_of_head (notParen : text.head? ≠ some '(') : typeUse? text = none := by
  unfold typeUse?
  split
  · exact absurd rfl notParen
  · rfl

/-- How a type is closed: by a parenthesis, or by a star and then a parenthesis or another star. -/
theorem typeEnds_start {ending : String} {use : String → TypeUse}
    (membership : (ending, use) ∈ typeEnds) :
    (∃ more, ending.toList = ')' :: more) ∨ (∃ more, ending.toList = ' ' :: '*' :: ')' :: more) ∨
      ∃ more, ending.toList = ' ' :: '*' :: ' ' :: '*' :: more := by
  simp only [typeEnds, List.mem_cons, Prod.mk.injEq, List.not_mem_nil, or_false] at membership
  rcases membership with ⟨rfl, -⟩ | ⟨rfl, -⟩ | ⟨rfl, -⟩ | ⟨rfl, -⟩
  · exact .inl ⟨_, rfl⟩
  · exact .inr (.inl ⟨_, rfl⟩)
  · exact .inr (.inr ⟨_, rfl⟩)
  · exact .inr (.inl ⟨_, rfl⟩)

theorem entry_typeEnds_of_head (notParen : text.head? ≠ some ')')
    (notBlank : text.head? ≠ some ' ') : entry typeEnds text = none := by
  rw [Generated.entry_eq_none_iff]
  rintro ending use membership ⟨rest, rfl⟩
  rcases typeEnds_start membership with ⟨more, isEnding⟩ | ⟨more, isEnding⟩ | ⟨more, isEnding⟩
  · simp [isEnding] at notParen
  · simp [isEnding] at notBlank
  · simp [isEnding] at notBlank

/-- A star between two operands has blanks around it. -/
theorem separators_start {separator : String} {op? : Option BinaryOp}
    (membership : (separator, op?) ∈ separators) :
    separator.toList = [' ', '*', ' '] ∨
      ∃ c more, separator.toList = ' ' :: c :: more ∧ c ≠ '*' := by
  simp only [separators, List.mem_cons, Prod.mk.injEq, List.not_mem_nil, or_false] at membership
  rcases membership with ⟨rfl, -⟩ | ⟨rfl, -⟩ | ⟨rfl, -⟩ | ⟨rfl, -⟩ | ⟨rfl, -⟩ | ⟨rfl, -⟩ |
    ⟨rfl, -⟩ | ⟨rfl, -⟩ | ⟨rfl, -⟩ | ⟨rfl, -⟩ | ⟨rfl, -⟩ | ⟨rfl, -⟩ | ⟨rfl, -⟩ | ⟨rfl, -⟩
  all_goals first | exact .inl rfl | exact .inr ⟨_, _, rfl, by decide⟩

/-- What stands between two operands closes no type. -/
theorem entry_typeEnds_separator {separator : String} {op? : Option BinaryOp} {c : Char}
    (membership : (separator, op?) ∈ separators) (notStar : c ≠ '*') :
    entry typeEnds (separator.toList ++ c :: rest) = none := by
  rw [Generated.entry_eq_none_iff]
  rintro ending use isEnding ⟨behind, same⟩
  rcases typeEnds_start isEnding with ⟨more, closes⟩ | ⟨more, closes⟩ | ⟨more, closes⟩ <;>
    rcases separators_start membership with isStar | ⟨sign, others, isSign, noStar⟩
  · simp [closes, isStar] at same
  · simp [closes, isSign] at same
  · simp [closes, isStar] at same
  · simp [closes, isSign, Ne.symm noStar] at same
  · simp [closes, isStar, Ne.symm notStar] at same
  · simp [closes, isSign, Ne.symm noStar] at same

theorem typeUse?_conversion (t : ScalarType) (rest : List Char) :
    typeUse? ('(' :: (t.generated.toList ++ (")(".toList ++ rest))) =
      some (.conversion t.generated, rest) := by
  rw [typeUse?]
  rcases t.generated_cases with isWord | isAddress
  · obtain ⟨isWord, behind⟩ := span_word isWord (")(".toList ++ rest) rfl
    rw [isWord, behind, String.ofList_toList]
    rfl
  · rw [isAddress]
    rfl

theorem typeUse?_address (t : ScalarType) {c : Char} (notParen : c ≠ '(') (rest : List Char) :
    typeUse? ('(' :: (t.generated.toList ++ (" *)".toList ++ c :: rest))) =
      some (.address t.generated, c :: rest) := by
  have ends : entry typeEnds (" *)".toList ++ c :: rest) = some (.address, c :: rest) := by
    simp [entry, typeEnds, strip, Ne.symm notParen]
  rw [typeUse?]
  rcases t.generated_cases with isWord | isAddress
  · obtain ⟨isWord, behind⟩ := span_word isWord (" *)".toList ++ c :: rest) rfl
    rw [isWord, behind, ends, String.ofList_toList]
    rfl
  · rw [isAddress]
    rfl

end Types

/-- How the text of an expression begins, so that a parenthesis before it is read as the one of an
operation or of arguments. -/
structure Opens (text : List Char) : Prop where
  start : ∃ c more, text = c :: more ∧ c ≠ ')' ∧ c ≠ '*'
  behindWord : (∀ c ∈ text, isIdentifierChar c = true) ∨
    ∃ c more, afterWord text = c :: more ∧ c ≠ ')' ∧ c ≠ ' '
  noType : ∀ rest, typeUse? (text ++ rest) = none

namespace Opens

variable {text chars rest left right : List Char}

theorem of_sign {c : Char} (isSign : c = '"' ∨ c = '!' ∨ c = '-') (more : List Char) :
    Opens (c :: more) := by
  rcases isSign with rfl | rfl | rfl
  all_goals exact ⟨⟨_, _, rfl, by decide⟩, .inr ⟨_, _, rfl, by decide⟩, fun _ => rfl⟩

/-- A text that begins with a word, and goes on as no operation does. -/
theorem of_word (areLegal : ∀ c ∈ chars, isIdentifierChar c = true) (nonempty : chars ≠ [])
    (goesOn : rest = [] ∨ ∃ c more, rest = c :: more ∧ isIdentifierChar c = false ∧ c ≠ ')' ∧
      c ≠ ' ') : Opens (chars ++ rest) := by
  obtain ⟨first, others, rfl⟩ := List.exists_cons_of_ne_nil nonempty
  have legal : isIdentifierChar first = true := areLegal first List.mem_cons_self
  have ne_of_sign {sign : Char} (isSign : isIdentifierChar sign = false) : first ≠ sign := by
    rintro rfl
    rw [legal] at isSign
    cases isSign
  refine ⟨⟨first, others ++ rest, rfl, ne_of_sign rfl, ne_of_sign rfl⟩, ?_, fun more => ?_⟩
  · rcases goesOn with rfl | ⟨c, more, rfl, notLegal, notClosed⟩
    · rw [List.append_nil]
      exact .inl areLegal
    · exact .inr ⟨c, more, (span_word areLegal (c :: more) notLegal).2, notClosed⟩
  · have notParen : first ≠ '(' := ne_of_sign rfl
    exact typeUse?_of_head (by simpa using notParen)

theorem of_paren (noEnd : ∀ rest, entry typeEnds (afterWord (text ++ rest)) = none) :
    Opens ('(' :: text) where
  start := ⟨'(', text, rfl, by decide⟩
  behindWord := .inr ⟨'(', text, rfl, by decide⟩
  noType rest := by rw [List.cons_append, typeUse?, noEnd rest, Option.map_none]

/-- An operand behind a parenthesis does not begin like a type there, whatever operation follows. -/
theorem entry_typeEnds {separator : String} {op? : Option BinaryOp} (opens : Opens left)
    (others : Opens right) (membership : (separator, op?) ∈ separators) (rest : List Char) :
    entry typeEnds (afterWord (left ++ (separator.toList ++ (right ++ rest)))) = none := by
  obtain ⟨blank, isBlank⟩ := Generated.starts_of_mem (c := ' ') (by decide) membership
  rcases opens.behindWord with isWord | ⟨c, more, isBehind, notParen, notBlank⟩
  · have ends : (separator.toList ++ (right ++ rest)).head?.any isIdentifierChar = false := by
      rw [isBlank]
      rfl
    obtain ⟨first, further, isRight, -, notStar⟩ := others.start
    rw [(span_word isWord _ ends).2, isRight]
    exact entry_typeEnds_separator membership notStar
  · have behind : afterWord (left ++ (separator.toList ++ (right ++ rest))) =
        c :: more ++ (separator.toList ++ (right ++ rest)) := by
      rw [afterWord] at isBehind ⊢
      rw [List.dropWhile_append, isBehind]
      rfl
    rw [behind]
    exact entry_typeEnds_of_head (by simpa using notParen) (by simpa using notBlank)

end Opens

/-- The text is read as an expression of this reading, whatever follows it. -/
structure Reads (text : List Char) (reading : Reading) : Prop extends Opens text where
  reads : ∀ {depth rest}, text.length ≤ depth → Ends rest →
    read depth (text ++ rest) = some (reading, rest)

section Steps

variable {c : Char} {more : List Char} {depth : Nat}

theorem read_number (isNumber : c = '-' ∨ c.isDigit = true) :
    read (depth + 1) (c :: more) =
      (Generated.literal (c :: more)).map fun (value, rest) => (.int value, rest) := by
  have ne_of_sign {sign : Char} (isSign : sign ≠ '-' ∧ sign.isDigit = false) : c ≠ sign := by
    rintro rfl
    rcases isNumber with isMinus | digit
    · exact isSign.1 isMinus
    · rw [isSign.2] at digit
      cases digit
  unfold read
  split
  · next isText => exact absurd (List.cons.inj isText).1 (ne_of_sign (by decide))
  · next isText => exact absurd (List.cons.inj isText).1 (ne_of_sign (by decide))
  · next isText => exact absurd (List.cons.inj isText).1 (ne_of_sign (by decide))
  · exact if_pos (by simpa using isNumber)

theorem read_word (isLegal : isIdentifierChar c = true) (notDigit : c.isDigit = false) :
    read (depth + 1) (c :: more) = named (read depth) (c :: more) depth := by
  have ne_of_sign {sign : Char} (isSign : isIdentifierChar sign = false) : c ≠ sign := by
    rintro rfl
    rw [isLegal] at isSign
    cases isSign
  have notMinus : c ≠ '-' := ne_of_sign rfl
  unfold read
  split
  · next isText => exact absurd (List.cons.inj isText).1 (ne_of_sign rfl)
  · next isText => exact absurd (List.cons.inj isText).1 (ne_of_sign rfl)
  · next isText => exact absurd (List.cons.inj isText).1 (ne_of_sign rfl)
  · exact if_neg (by simp [notMinus, notDigit])

end Steps

namespace Reads

variable {a b d name : List Char} {x y z : Reading} {depth : Nat} {rest : List Char}

theorem of_read {text : List Char} {reading : Reading} (opens : Opens text)
    (reads : ∀ {depth rest}, text.length ≤ depth + 1 → Ends rest →
      read (depth + 1) (text ++ rest) = some (reading, rest)) : Reads text reading where
  toOpens := opens
  reads {depth rest} fits ends := by
    obtain ⟨c, more, rfl, -⟩ := opens.start
    cases depth with
    | zero => cases fits
    | succ depth => exact reads fits ends

theorem enclosed_eq {closing : String} (part : Reads a x) (fits : a.length ≤ depth)
    (ends : Ends (closing.toList ++ rest)) (result : Reading → Reading) :
    enclosed (read depth) (a ++ (closing.toList ++ rest)) closing result =
      some (result x, rest) := by
  rw [enclosed, part.reads fits ends]
  simp [Generated.strip_append]

theorem pair_eq {between closing : String} (first : Reads a x) (second : Reads b y)
    (firstFits : a.length ≤ depth) (secondFits : b.length ≤ depth)
    (separates : Ends (between.toList ++ (b ++ (closing.toList ++ rest))))
    (ends : Ends (closing.toList ++ rest)) (result : Reading → Reading → Reading) :
    pair (read depth) (a ++ (between.toList ++ (b ++ (closing.toList ++ rest)))) between closing
      result = some (result x y, rest) := by
  rw [pair, first.reads firstFits separates]
  simp [Generated.strip_append, second.enclosed_eq secondFits ends]

theorem natural (n : Nat) : Reads (Nat.toDigits 10 n) (.int n) := by
  obtain ⟨first, more, areDigits, digit, others⟩ := toDigits_eq_cons n
  have legal : ∀ c ∈ Nat.toDigits 10 n, isIdentifierChar c = true := by
    rw [areDigits]
    exact List.forall_mem_cons.mpr ⟨isIdentifierChar_of_isDigit digit, fun c membership =>
      isIdentifierChar_of_isDigit (others c membership)⟩
  refine of_read ?_ fun {depth rest} _ ends => ?_
  · have opens := Opens.of_word legal (by simp [areDigits]) (.inl rfl)
    rwa [List.append_nil] at opens
  · have isNatural := Generated.natural_toDigits n ends.endsNumber
    rw [areDigits, List.cons_append] at isNatural ⊢
    rw [read_number (.inr digit), Generated.literal_of_isDigit digit, isNatural]
    rfl

theorem negative (n : Nat) : Reads ('-' :: Nat.toDigits 10 n) (.int (-n)) := by
  refine of_read (.of_sign (by decide) _) fun {depth rest} _ ends => ?_
  rw [List.cons_append, read_number (.inl rfl)]
  simp [Generated.literal, Generated.natural_toDigits n ends.endsNumber]

theorem int (n : Int) : Reads (toString n).toList (.int n) := by
  cases n with
  | ofNat n =>
    change Reads n.repr.toList _
    rw [Nat.toList_repr]
    exact natural n
  | negSucc n =>
    change Reads ("-" ++ (n + 1).repr).toList _
    rw [Int.negSucc_eq]
    simpa using negative (n + 1)

theorem string (text : String) : Reads (quoted text).toList (.string text) := by
  rw [quoted, String.toList_ofList]
  refine of_read (.of_sign (by decide) _) fun {depth rest} fits _ => ?_
  have shorter : (text.toList.flatMap Quoted.escape).length < depth := by
    simp only [Quoted.chars, List.length_cons, List.length_append, List.cons_append] at fits
    omega
  have isBody := Quoted.body_chars shorter rest
  simp [Quoted.chars, read, isBody]

theorem not (arg : Reads a x) : Reads ('!' :: ("(".toList ++ (a ++ ")".toList))) (.not x) := by
  refine of_read (.of_sign (by decide) _) fun {depth rest} fits _ => ?_
  have shorter : a.length ≤ depth := by
    simp only [List.length_cons, List.length_append] at fits
    omega
  simp only [List.cons_append, List.append_assoc, read, Generated.strip_append,
    Option.bind_eq_bind, Option.bind_some]
  exact arg.enclosed_eq shorter (by rfl) _

section Parentheses

/-- Two parentheses begin no type behind the first. -/
theorem opens_parens (text : List Char) : Opens ('(' :: '(' :: text) := by
  refine .of_paren fun rest => ?_
  have behind : afterWord ('(' :: text ++ rest) = '(' :: (text ++ rest) := rfl
  rw [behind]
  exact entry_typeEnds_of_head (by simp) (by simp)

theorem cast (t : ScalarType) (arg : Reads a x) :
    Reads ('(' :: '(' :: (t.generated.toList ++ (")(".toList ++ (a ++ "))".toList))))
      (.cast t.generated x) := by
  refine of_read (opens_parens _) fun {depth rest} fits _ => ?_
  have shorter : a.length ≤ depth := by
    simp only [List.length_cons, List.length_append] at fits
    omega
  have isType := typeUse?_conversion t (a ++ ("))".toList ++ rest))
  simp only [List.cons_append, List.append_assoc, read, grouped, isType]
  exact arg.enclosed_eq shorter (by rfl) _

theorem address (t : ScalarType) (isIdentifier : IsIdentifier name) (nonempty : name ≠ [])
    (index : Reads a x) :
    Reads ('(' :: '(' :: (t.generated.toList ++ (" *)".toList ++
        (name ++ (" + ".toList ++ (a ++ ")".toList))))))
      (.address t.generated (String.ofList name) x) := by
  refine of_read (opens_parens _) fun {depth rest} fits _ => ?_
  have shorter : a.length ≤ depth := by
    simp only [List.length_cons, List.length_append] at fits
    omega
  have isType : typeUse? ('(' :: (t.generated.toList ++ (" *)".toList ++
        (name ++ (" + ".toList ++ (a ++ (")".toList ++ rest))))))) =
      some (.address t.generated, name ++ (" + ".toList ++ (a ++ (")".toList ++ rest)))) := by
    obtain ⟨c, more, rfl⟩ := List.exists_cons_of_ne_nil nonempty
    have notParen : c ≠ '(' := by
      rintro rfl
      exact absurd (isIdentifier.legal '(' List.mem_cons_self) (by decide)
    exact typeUse?_address t notParen _
  obtain ⟨isWord, behind⟩ :=
    span_word isIdentifier.legal (" + ".toList ++ (a ++ (")".toList ++ rest))) rfl
  simp only [List.cons_append, List.append_assoc, read, grouped, isType, isWord, behind,
    Generated.strip_append, Option.bind_eq_bind, Option.bind_some]
  exact index.enclosed_eq shorter (by rfl) _

variable {separator : String} {op? : Option BinaryOp} {op : BinaryOp}

theorem opens_operation (membership : (separator, op?) ∈ separators) (left : Opens a)
    (right : Opens b) (more : List Char) :
    Opens ('(' :: (a ++ (separator.toList ++ (b ++ more)))) := by
  refine .of_paren fun rest => ?_
  simpa only [List.append_assoc] using left.entry_typeEnds right membership (more ++ rest)

theorem operation_eq (membership : (separator, op?) ∈ separators) (left : Reads a x)
    (fits : a.length ≤ depth) (text : List Char) :
    operation (read depth) (a ++ (separator.toList ++ text)) =
      continued (read depth) text x op? := by
  have ends : Ends (separator.toList ++ text) := by
    obtain ⟨blank, isBlank⟩ := Generated.starts_of_mem (c := ' ') (by decide) membership
    rw [isBlank]
    rfl
  rw [operation, left.reads fits ends]
  simp only [Option.bind_eq_bind, Option.bind_some,
    Generated.entry_append (by decide) membership text]

theorem signed (membership : (separator, some op) ∈ separators) (left : Reads a x)
    (right : Reads b y) :
    Reads ('(' :: (a ++ (separator.toList ++ (b ++ ")".toList)))) (.binary op x y) := by
  refine of_read (opens_operation membership left.toOpens right.toOpens _)
    fun {depth rest} fits _ => ?_
  simp only [List.length_cons, List.length_append] at fits
  have noType := left.noType (separator.toList ++ (b ++ (")".toList ++ rest)))
  simp only [List.cons_append, List.append_assoc, read, grouped, noType]
  rw [operation_eq membership left (by omega)]
  exact right.enclosed_eq (by omega) (by rfl) _

theorem select (condition : Reads a x) (whenTrue : Reads b y) (whenFalse : Reads d z) :
    Reads ('(' :: (a ++ (" ? ".toList ++ (b ++ (" : ".toList ++ (d ++ ")".toList))))))
      (.select x y z) := by
  have membership : (" ? ", none) ∈ separators := List.mem_cons_self
  refine of_read (opens_operation membership condition.toOpens whenTrue.toOpens _)
    fun {depth rest} fits _ => ?_
  simp only [List.length_cons, List.length_append] at fits
  have noType := condition.noType
    (" ? ".toList ++ (b ++ (" : ".toList ++ (d ++ (")".toList ++ rest)))))
  simp only [List.cons_append, List.append_assoc, read, grouped, noType]
  rw [operation_eq membership condition (by omega)]
  exact whenTrue.pair_eq whenFalse (by omega) (by omega) (by rfl) (by rfl) _

end Parentheses

section Arguments

variable {texts : List String} {readings : List Reading} {limit : Nat}

theorem arguments_eq (args : List.Forall₂ (fun text => Reads text.toList) texts readings)
    (nonempty : texts ≠ []) (fits : (commaSeparated texts).toList.length ≤ depth)
    (few : (commaSeparated texts).toList.length ≤ limit) (rest : List Char) :
    arguments (read depth) limit ((commaSeparated texts).toList ++ (")".toList ++ rest)) =
      some (readings, rest) := by
  induction args generalizing limit with
  | nil => exact absurd rfl nonempty
  | @cons text reading texts readings first others inductionHypothesis =>
    obtain ⟨c, more, isText, -⟩ := first.start
    cases others with
    | nil =>
      simp only [commaSeparated, joinWith] at fits few ⊢
      cases limit with
      | zero => simp [isText] at few
      | succ limit =>
        have noComma : strip ", " (")".toList ++ rest) = none := rfl
        simp only [arguments, first.reads fits (by rfl : Ends (")".toList ++ rest)), noComma,
          Generated.strip_append, Option.bind_eq_bind, Option.bind_some, pure]
    | @cons next _ texts _ second others =>
      have isRow : (commaSeparated (text :: next :: texts)).toList =
          text.toList ++ (", ".toList ++ (commaSeparated (next :: texts)).toList) := by
        simp [commaSeparated, joinWith]
      rw [isRow] at fits few ⊢
      simp only [List.length_append] at fits few
      cases limit with
      | zero => simp [isText] at few
      | succ limit =>
        have comma : ", ".toList.length = 2 := rfl
        have fewer : (commaSeparated (next :: texts)).toList.length ≤ limit := by omega
        have further := inductionHypothesis (by simp) (by omega) fewer
        simp only [List.append_assoc]
        simp only [arguments, first.reads (by omega : _ ≤ depth) (by rfl : Ends (", ".toList ++ _)),
          Generated.strip_append, further, Option.bind_eq_bind, Option.bind_some, pure]

theorem argumentRow_eq (args : List.Forall₂ (fun text => Reads text.toList) texts readings)
    (fits : (commaSeparated texts).toList.length ≤ depth) (rest : List Char) :
    argumentRow (read depth) ((commaSeparated texts).toList ++ (")".toList ++ rest)) depth =
      some (readings, rest) := by
  cases args with
  | nil => rfl
  | @cons text reading texts readings first others =>
    have notClosed : strip ")" ((commaSeparated (text :: texts)).toList ++ (")".toList ++ rest)) =
        none := by
      obtain ⟨c, more, isText, notParen, -⟩ := first.start
      cases texts <;> simp [commaSeparated, joinWith, isText, strip, Ne.symm notParen]
    rw [argumentRow, notClosed]
    exact arguments_eq (.cons first others) (by simp) fits fits rest

end Arguments

section Names

variable (isIdentifier : IsIdentifier name) (nonempty : name ≠ [])

include isIdentifier nonempty

theorem read_name (text : List Char) :
    read (depth + 1) (name ++ text) = named (read depth) (name ++ text) depth := by
  obtain ⟨c, more, rfl⟩ := List.exists_cons_of_ne_nil nonempty
  exact read_word (isIdentifier.legal c List.mem_cons_self) isIdentifier.head_not_digit

theorem var : Reads name (.var (String.ofList name)) := by
  refine of_read ?_ fun {depth rest} _ ends => ?_
  · have opens := Opens.of_word isIdentifier.legal nonempty (.inl rfl)
    rwa [List.append_nil] at opens
  · obtain ⟨isWord, behind⟩ := span_word isIdentifier.legal rest ends.notLegal
    rw [read_name isIdentifier nonempty, named, isWord, behind]
    rcases ends.cases with rfl | ⟨c, more, rfl, rfl | rfl | rfl | rfl⟩ <;> rfl

theorem load (index : Reads a x) :
    Reads (name ++ '[' :: (a ++ "]".toList)) (.load (String.ofList name) x) := by
  refine of_read ?_ fun {depth rest} fits _ => ?_
  · exact .of_word isIdentifier.legal nonempty (.inr ⟨'[', _, rfl, by decide⟩)
  · simp only [List.length_append, List.length_cons] at fits
    obtain ⟨isWord, behind⟩ :=
      span_word isIdentifier.legal ('[' :: (a ++ ("]".toList ++ rest))) rfl
    simp only [List.append_assoc, List.cons_append]
    rw [read_name isIdentifier nonempty, named, isWord, behind]
    exact index.enclosed_eq (by omega) (by rfl) _

theorem call {texts : List String} {readings : List Reading}
    (args : List.Forall₂ (fun text => Reads text.toList) texts readings) :
    Reads (name ++ '(' :: ((commaSeparated texts).toList ++ ")".toList))
      (.call (String.ofList name) readings) := by
  refine of_read ?_ fun {depth rest} fits _ => ?_
  · exact .of_word isIdentifier.legal nonempty (.inr ⟨'(', _, rfl, by decide⟩)
  · simp only [List.length_append, List.length_cons] at fits
    have shorter : (commaSeparated texts).toList.length ≤ depth := by omega
    obtain ⟨isWord, behind⟩ := span_word isIdentifier.legal
      ('(' :: ((commaSeparated texts).toList ++ (")".toList ++ rest))) rfl
    simp only [List.append_assoc, List.cons_append]
    rw [read_name isIdentifier nonempty, named, isWord, behind]
    simp only [argumentRow_eq args shorter, Option.map_some]

end Names

theorem extremum {word : String} {op : BinaryOp} (membership : (word, op) ∈ extrema)
    (left : Reads a x) (right : Reads b y) :
    Reads ("std".toList ++ (word.toList ++ (a ++ (", ".toList ++ (b ++ ")".toList)))))
      (.binary op x y) := by
  have isIdentifier : IsIdentifier "std".toList := ⟨List.all_eq_true.mp rfl, rfl⟩
  obtain ⟨more, isWord⟩ := Generated.starts_of_mem (c := ':') (by decide) membership
  refine of_read ?_ fun {depth rest} fits _ => ?_
  · rw [isWord]
    exact .of_word isIdentifier.legal (by decide) (.inr ⟨':', _, rfl, by decide⟩)
  · simp only [List.length_append] at fits
    have opening : "std".toList.length = 3 := rfl
    have found := Generated.entry_append (by decide) membership
      (a ++ (", ".toList ++ (b ++ (")".toList ++ rest))))
    obtain ⟨-, behind⟩ := span_word isIdentifier.legal
      (word.toList ++ (a ++ (", ".toList ++ (b ++ (")".toList ++ rest))))) (by rw [isWord]; rfl)
    simp only [List.append_assoc]
    rw [read_name isIdentifier (by decide), named, behind]
    rw [isWord, List.cons_append] at found ⊢
    simp only [found, Option.bind_eq_bind, Option.bind_some]
    exact left.pair_eq right (by omega) (by omega) (by rfl) (by rfl) _

end Reads

end Reading

theorem BinaryOp.sign_mem_separators {op : BinaryOp} {sign : String}
    (isSign : op.sign? = some sign) : (" " ++ sign ++ " ", some op) ∈ Reading.separators := by
  cases op <;> cases isSign <;> decide

theorem BinaryOp.mem_extrema {op : BinaryOp} (noSign : op.sign? = none) :
    ∃ word, (word, op) ∈ Reading.extrema ∧
      (if op = .min then "std::min(" else "std::max(") = "std" ++ word := by
  cases op with
  | min => exact ⟨"::min(", by decide, by decide⟩
  | max => exact ⟨"::max(", by decide, by decide⟩
  | _ => cases noSign

namespace Expr

open Reading

variable {x y z : Reading}

theorem reads_printBinary (op : BinaryOp) {left right : String} (isLeft : Reads left.toList x)
    (isRight : Reads right.toList y) :
    Reads (printBinary op left right).toList (.binary op x y) := by
  cases isSign : op.sign? with
  | some sign =>
    have reads := Reads.signed (BinaryOp.sign_mem_separators isSign) isLeft isRight
    simpa [printBinary, isSign] using reads
  | none =>
    obtain ⟨word, membership, isWord⟩ := BinaryOp.mem_extrema isSign
    have reads := Reads.extremum membership isLeft isRight
    simpa [printBinary, isSign, isWord] using reads

theorem toList_ne_nil {name : String} (nonempty : name ≠ "") : name.toList ≠ [] := by
  intro isNil
  exact nonempty (String.toList_eq_nil_iff.mp isNil)

mutual

theorem reads_print (e : Expr) (legible : e.Legible) :
    GivesOnly (fun text => Reads text.toList e.reading) e.print := by
  cases legible with
  | int => exact .ok (.int _)
  | string => exact .ok (.string _)
  | @var name type nonempty unchanged =>
    have isIdentifier := (identifier_eq_self_iff name).mp unchanged
    refine .ok ?_
    rw [unchanged]
    simpa [reading] using Reads.var isIdentifier (toList_ne_nil nonempty)
  | @cast type arg legible =>
    refine (reads_print arg legible).bind fun text reads => .ok ?_
    simpa [reading] using reads.cast type
  | @binary op left right isLeft isRight =>
    exact (reads_print left isLeft).bind fun _ leftReads =>
      (reads_print right isRight).bind fun _ rightReads =>
        .ok (reads_printBinary op leftReads rightReads)
  | @not arg legible =>
    refine (reads_print arg legible).bind fun text reads => .ok ?_
    simpa [reading] using reads.not
  | @select condition whenTrue whenFalse isCondition isTrue isFalse =>
    refine (reads_print condition isCondition).bind fun _ first =>
      (reads_print whenTrue isTrue).bind fun _ second =>
        (reads_print whenFalse isFalse).bind fun _ third => .ok ?_
    simpa [reading] using first.select second third
  | @load name type index nonempty unchanged legible =>
    have isIdentifier := (identifier_eq_self_iff name).mp unchanged
    refine (reads_print index legible).bind fun text reads => .ok ?_
    rw [unchanged]
    simpa [reading] using reads.load isIdentifier (toList_ne_nil nonempty)
  | @call name type args nonempty unchanged legible =>
    unfold print
    split
    · next isAddress =>
      split
      · next source type index =>
        cases legible _ List.mem_cons_self with
        | load nonempty unchanged legible =>
          have isIdentifier := (identifier_eq_self_iff source).mp unchanged
          refine (reads_print index legible).bind fun text reads => .ok ?_
          rw [unchanged]
          simpa [reading, isAddress] using
            reads.address type isIdentifier (toList_ne_nil nonempty)
      · exact .refused _
    · next notAddress =>
      split
      · exact .refused _
      · have isIdentifier := (identifier_eq_self_iff name).mp unchanged
        refine (reads_printAll args legible).bind fun texts reads => .ok ?_
        rw [unchanged, reading_call notAddress]
        simpa using Reads.call isIdentifier (toList_ne_nil nonempty) reads

theorem reads_printAll (args : List Expr) (legible : ∀ arg ∈ args, arg.Legible) :
    GivesOnly (fun texts => List.Forall₂ (fun text => Reads text.toList) texts (readings args))
      (printAll args) := by
  cases args with
  | nil => exact .ok .nil
  | cons arg rest =>
    obtain ⟨first, others⟩ := List.forall_mem_cons.mp legible
    exact (reads_print arg first).bind fun _ reads =>
      (reads_printAll rest others).bind fun _ each => .ok (.cons reads each)

end

/-- Two expressions that are printed alike say the same: they differ in nothing but types that are
not printed. -/
theorem reading_eq_of_print_eq {e f : Expr} {text : String} (legible : e.Legible)
    (otherLegible : f.Legible) (isText : e.print = .ok text) (otherIsText : f.print = .ok text) :
    e.reading = f.reading := by
  have ends : Ends [] := rfl
  have one := (reads_print e legible text isText).reads (Nat.le_refl _) ends
  have other := (reads_print f otherLegible text otherIsText).reads (Nat.le_refl _) ends
  rw [one, Option.some.injEq, Prod.mk.injEq] at other
  exact other.1

def misleading (t : ScalarType) : Expr :=
  .binary .mul
    (.select (.not (.var "void" t)) (.cast t (.load "int32_t" t (.ofInt (-5))))
      (.call addressOf .handle [.load "std" t (.binary .mul (.var "void" t) (.ofInt 2))]))
    (.call "f" t [.binary .max (.var "x" t) (.ofInt 1), .string ") \" + ("])

theorem legible_misleading (t : ScalarType) : (misleading t).Legible := by
  have row : ∀ arg ∈ [.binary .max (.var "x" t) (.ofInt 1), .string ") \" + ("], Legible arg :=
    List.forall_mem_cons.mpr ⟨.binary (.var (by decide) (by decide)) .int,
      List.forall_mem_singleton.mpr .string⟩
  have element : ∀ arg ∈ [.load "std" t (.binary .mul (.var "void" t) (.ofInt 2))], Legible arg :=
    List.forall_mem_singleton.mpr
      (.load (by decide) (by decide) (.binary (.var (by decide) (by decide)) .int))
  exact .binary
    (.select (.not (.var (by decide) (by decide))) (.cast (.load (by decide) (by decide) .int))
      (.call (by decide) (by decide) element))
    (.call (by decide) (by decide) row)

theorem reading_eq_of_print_eq_misleading :
    (misleading (.uint 16)).print =
        .ok ("((!(void) ? ((uint16_t)(int32_t[-5])) : ((uint16_t *)std + (void * 2))) * " ++
          "f(std::max(x, 1), \") \\\" + (\"))") ∧
      (misleading (.float 16)).print = (misleading (.uint 16)).print ∧
      (misleading (.float 16)).reading = (misleading (.uint 16)).reading := by
  have printed : (misleading (.uint 16)).print =
      .ok ("((!(void) ? ((uint16_t)(int32_t[-5])) : ((uint16_t *)std + (void * 2))) * " ++
        "f(std::max(x, 1), \") \\\" + (\"))") := rfl
  have same : (misleading (.float 16)).print = (misleading (.uint 16)).print := rfl
  exact ⟨printed, same, reading_eq_of_print_eq (legible_misleading _) (legible_misleading _)
    (same.trans printed) printed⟩

end Expr

end StreamSynth
