import StreamSynth.Proofs.Scanning

/-!
# Lexical rules

Each rule says which texts are tokens of one kind, blanks or a comment, without regard to how text
is scanned. What the scanner takes from the start of a text follows the rules that match there: it
is told by the first character which rules these can be, and no prefix of the text that one of them
matches is longer.
-/

namespace StreamSynth.Lexer

def IsDigits (cs : List Char) : Prop := cs ≠ [] ∧ ∀ c ∈ cs, c.isDigit = true

inductive Power : List Char → Int → Prop
  | none : Power [] 0
  | mk {mark sign digits} : mark ∈ ['e', 'E'] → sign ∈ [[], ['+'], ['-']] → IsDigits digits →
      Power (mark :: (sign ++ digits))
        (if sign = ['-'] then -(digitsValue digits : Int) else digitsValue digits)

structure Decimal where
  whole : List Char
  fraction : List Char
  power : List Char
  exponent : Int
  whole_digits : IsDigits whole
  fraction_digits : IsDigits fraction
  isPower : Power power exponent

namespace Decimal

def text (d : Decimal) : List Char := d.whole ++ '.' :: (d.fraction ++ d.power)

/-- The number is that of its digits, multiplied by ten to the power of its scale. -/
def digits (d : Decimal) : Nat := digitsValue (d.whole ++ d.fraction)

def scale (d : Decimal) : Int := d.exponent - d.fraction.length

end Decimal

/-- A character of a string literal, or a backslash with the character behind it. -/
inductive StringPart where
  | plain (c : Char) (ordinary : c ≠ '"' ∧ c ≠ '\\')
  | escape (c : Char) (sameLine : c ≠ '\n')

namespace StringPart

def text : StringPart → List Char
  | plain c _ => [c]
  | escape c _ => ['\\', c]

/-- Whether the part stands for a character. The escapes that do are a quote, a backslash and
`n`. -/
def isKnown : StringPart → Bool
  | plain _ _ => true
  | escape c _ => c ∈ ['"', '\\', 'n']

def char : StringPart → Char
  | plain c _ => c
  | escape c _ => if c = 'n' then '\n' else c

end StringPart

inductive Rule where
  | blanks
  | comment
  | keyword (word : Keyword)
  | symbol (sign : Symbol)
  | int
  | double
  | single
  | string
  | ident

def Rule.Matches : Rule → List Char → Prop
  | blanks, text => text ≠ [] ∧ ∀ c ∈ text, isBlank c = true
  | comment, text => ∃ body, text = '/' :: '/' :: body ∧ ∀ c ∈ body, c ≠ '\n'
  | keyword word, text => text = word.spelling.toList
  | symbol sign, text => text = sign.spelling.toList
  | int, text => IsDigits text
  | double, text => ∃ d : Decimal, text = d.text
  | single, text => ∃ d : Decimal, text = d.text ++ ['f']
  | string, text =>
    ∃ parts : List StringPart, text = '"' :: (parts.flatMap StringPart.text ++ ['"'])
  | ident, text => IsWord text

section Classes

/-- What a first character tells about the rules that can match. -/
inductive CharClass where
  | blank
  | digit
  | quote
  | word
  | sign

def CharClass.of (c : Char) : CharClass :=
  if isBlank c then blank else if c.isDigit then digit else if c = '"' then quote
  else if isWordStart c then word else sign

def Rule.charClass : Rule → CharClass
  | blanks => .blank
  | int | double | single => .digit
  | string => .quote
  | keyword _ | ident => .word
  | comment | symbol _ => .sign

theorem of_isDigit {c : Char} (digit : c.isDigit = true) : CharClass.of c = .digit := by
  have notBlank : isBlank c = false := not_isBlank_of digit (by decide)
  simp [CharClass.of, notBlank, digit]

theorem of_isWordStart {c : Char} (starts : isWordStart c = true) : CharClass.of c = .word := by
  have notBlank : isBlank c = false := not_isBlank_of starts (by decide)
  have notDigit : c.isDigit = false := not_isDigit_of_isWordStart starts
  have notQuote : c ≠ '"' := by
    rintro rfl
    cases starts
  simp [CharClass.of, notBlank, notDigit, notQuote, starts]

theorem IsDigits.exists_cons {cs : List Char} (areDigits : IsDigits cs) :
    ∃ first more, cs = first :: more ∧ first.isDigit = true ∧ ∀ c ∈ more, c.isDigit = true := by
  obtain ⟨nonempty, areDigits⟩ := areDigits
  obtain ⟨first, more, rfl⟩ := List.exists_cons_of_ne_nil nonempty
  exact ⟨first, more, rfl, List.forall_mem_cons.mp areDigits⟩

theorem Rule.Matches.exists_cons {rule : Rule} {text : List Char} (matched : rule.Matches text) :
    ∃ first more, text = first :: more ∧ CharClass.of first = rule.charClass := by
  cases rule with
  | blanks =>
    obtain ⟨nonempty, areBlank⟩ := matched
    obtain ⟨first, more, rfl⟩ := List.exists_cons_of_ne_nil nonempty
    exact ⟨first, more, rfl, by rw [CharClass.of, if_pos (areBlank first List.mem_cons_self)]; rfl⟩
  | comment =>
    obtain ⟨body, rfl, -⟩ := matched
    exact ⟨'/', _, rfl, rfl⟩
  | keyword word =>
    rw [Matches] at matched
    obtain ⟨first, more, isText, starts⟩ := (isWord_spelling word).exists_cons
    exact ⟨first, more, matched.trans isText, of_isWordStart starts⟩
  | symbol sign =>
    rw [Matches] at matched
    subst matched
    cases sign <;> exact ⟨_, _, rfl, rfl⟩
  | int =>
    obtain ⟨first, more, rfl, digit, -⟩ := IsDigits.exists_cons matched
    exact ⟨first, more, rfl, of_isDigit digit⟩
  | double =>
    obtain ⟨d, rfl⟩ := matched
    obtain ⟨first, more, isWhole, digit, -⟩ := d.whole_digits.exists_cons
    exact ⟨first, _, by rw [Decimal.text, isWhole, List.cons_append], of_isDigit digit⟩
  | single =>
    obtain ⟨d, rfl⟩ := matched
    obtain ⟨first, more, isWhole, digit, -⟩ := d.whole_digits.exists_cons
    exact ⟨first, _, by rw [Decimal.text, isWhole, List.cons_append, List.cons_append],
      of_isDigit digit⟩
  | string =>
    obtain ⟨parts, rfl⟩ := matched
    exact ⟨'"', _, rfl, rfl⟩
  | ident =>
    obtain ⟨first, more, isText, starts⟩ := IsWord.exists_cons matched
    exact ⟨first, more, isText, of_isWordStart starts⟩

end Classes

section Runs

theorem length_le_takeWhile {kind : Char → Bool} {run cs : List Char}
    (areKind : ∀ c ∈ run, kind c = true) (isPrefix : run <+: cs) :
    run.length ≤ (cs.takeWhile kind).length := by
  obtain ⟨rest, rfl⟩ := isPrefix
  rw [List.takeWhile_append_of_pos areKind, List.length_append]
  exact Nat.le_add_right _ _

theorem isDigits_of_takeWhile {cs : List Char} (nonempty : cs.takeWhile Char.isDigit ≠ []) :
    IsDigits (cs.takeWhile Char.isDigit) :=
  ⟨nonempty, List.all_eq_true.mp List.all_takeWhile⟩

theorem IsWord.length_le {first : Char} {more cs : List Char} (isWord : IsWord (first :: more))
    (isPrefix : more <+: cs) : more.length ≤ (identTail cs).length := by
  obtain ⟨rest, rfl⟩ := isPrefix
  rw [isWord.identTail_append, List.length_append]
  exact Nat.le_add_right _ _

end Runs

section Strings

variable (parts : List StringPart) (rest : List Char)

/-- The body of a string goes on behind any of its parts. -/
theorem stringBody_append :
    stringBody (parts.flatMap StringPart.text ++ rest) =
      (parts.flatMap StringPart.text ++ (stringBody rest).1, (stringBody rest).2) := by
  induction parts with
  | nil => rfl
  | cons part parts inductionHypothesis =>
    rw [List.flatMap_cons, List.append_assoc]
    cases part with
    | plain c ordinary =>
      change stringBody (c :: (parts.flatMap StringPart.text ++ rest)) = _
      rw [stringBody, inductionHypothesis]
      · rfl
      all_goals grind
    | escape c sameLine =>
      change stringBody ('\\' :: c :: (parts.flatMap StringPart.text ++ rest)) = _
      rw [stringBody, if_neg sameLine, inductionHypothesis]
      rfl

theorem exists_parts_stringBody (cs : List Char) :
    ∃ parts : List StringPart, (stringBody cs).1 = parts.flatMap StringPart.text := by
  fun_induction stringBody cs with
  | case1 => exact ⟨[], rfl⟩
  | case2 => exact ⟨[], rfl⟩
  | case3 => exact ⟨[], rfl⟩
  | case4 c rest sameLine body closed isBody inductionHypothesis =>
    obtain ⟨parts, areParts⟩ := inductionHypothesis
    rw [isBody] at areParts
    exact ⟨.escape c sameLine :: parts, congrArg ('\\' :: c :: ·) areParts⟩
  | case5 => exact ⟨[], rfl⟩
  | case6 c rest notQuote notEscape notAlone body closed isBody inductionHypothesis =>
    have notBackslash : c ≠ '\\' := by
      intro isBackslash
      cases rest with
      | nil => exact notAlone isBackslash rfl
      | cons d rest => exact notEscape d rest isBackslash rfl
    obtain ⟨parts, areParts⟩ := inductionHypothesis
    rw [isBody] at areParts
    exact ⟨.plain c ⟨notQuote, notBackslash⟩ :: parts, congrArg (c :: ·) areParts⟩

theorem unescape_escape (c : Char) :
    unescape ('\\' :: c :: rest) =
      if c ∈ ['"', '\\', 'n'] then (unescape rest).map ((if c = 'n' then '\n' else c) :: ·)
      else none := by
  by_cases isQuote : c = '"'
  · subst isQuote
    rfl
  by_cases isBackslash : c = '\\'
  · subst isBackslash
    rfl
  by_cases isLetter : c = 'n'
  · subst isLetter
    rfl
  rw [if_neg (by simp [isQuote, isBackslash, isLetter]), unescape]
  all_goals grind

theorem unescape_parts :
    unescape (parts.flatMap StringPart.text) =
      if parts.all StringPart.isKnown then some (parts.map StringPart.char) else none := by
  induction parts with
  | nil => rfl
  | cons part parts inductionHypothesis =>
    rw [List.flatMap_cons, List.all_cons, List.map_cons]
    cases part with
    | plain c ordinary =>
      change unescape (c :: parts.flatMap StringPart.text) = _
      rw [unescape, inductionHypothesis]
      · cases parts.all StringPart.isKnown <;> rfl
      all_goals grind
    | escape c sameLine =>
      change unescape ('\\' :: c :: parts.flatMap StringPart.text) = _
      rw [unescape_escape, inductionHypothesis, StringPart.isKnown, StringPart.char]
      by_cases isKnown : c ∈ ['"', '\\', 'n']
      · rw [if_pos isKnown, decide_eq_true isKnown, Bool.true_and]
        cases parts.all StringPart.isKnown <;> rfl
      · rw [if_neg isKnown, decide_eq_false isKnown]
        rfl

end Strings

section Numbers

variable {cs : List Char}

theorem power_exponentPart (cs : List Char) : Power (exponentPart cs).1 (exponentPart cs).2 := by
  unfold exponentPart
  split
  · next mark rest =>
    split
    · next isMark =>
      have isMark : mark ∈ ['e', 'E'] := by simpa using isMark
      cases rest with
      | nil => exact .none
      | cons c tail =>
        dsimp only
        split
        · next isSign =>
          have isSign : [c] ∈ [[], ['+'], ['-']] := by simpa using isSign
          split
          · exact .none
          · next nonempty =>
            exact .mk isMark isSign (isDigits_of_takeWhile (mt List.isEmpty_iff.mpr nonempty))
        · split
          · exact .none
          · next nonempty =>
            exact .mk isMark List.mem_cons_self
              (isDigits_of_takeWhile (mt List.isEmpty_iff.mpr nonempty))
    · exact .none
  · exact .none

theorem exponentPart_append {mark : Char} {sign digits : List Char} (isMark : mark ∈ ['e', 'E'])
    (isSign : sign ∈ [[], ['+'], ['-']]) (areDigits : IsDigits digits) (rest : List Char) :
    (exponentPart (mark :: (sign ++ (digits ++ rest)))).1 =
      mark :: (sign ++ (digits ++ rest).takeWhile Char.isDigit) := by
  obtain ⟨first, more, rfl, digit, -⟩ := areDigits.exists_cons
  have marked : (mark = 'e' || mark = 'E') = true := by simpa using isMark
  have notPlus : first ≠ '+' := by
    rintro rfl
    cases digit
  have notMinus : first ≠ '-' := by
    rintro rfl
    cases digit
  simp only [List.mem_cons, List.not_mem_nil, or_false] at isSign
  rcases isSign with rfl | rfl | rfl <;> simp [exponentPart, marked, notPlus, notMinus, digit]

theorem Power.length_le {power : List Char} {exponent : Int} (isPower : Power power exponent)
    (isPrefix : power <+: cs) : power.length ≤ (exponentPart cs).1.length := by
  cases isPower with
  | none => exact Nat.zero_le _
  | @mk mark sign digits isMark isSign areDigits =>
    obtain ⟨rest, rfl⟩ := isPrefix
    have longest := length_le_takeWhile areDigits.2 (List.prefix_append digits rest)
    rw [List.cons_append, List.append_assoc, exponentPart_append isMark isSign areDigits]
    simp only [List.length_cons, List.length_append]
    omega

namespace Decimal

variable {d : Decimal} {first : Char} {tail : List Char}

/-- Where the whole part of a number ends is told by its point. -/
theorem split_of_text_prefix (isPrefix : d.text <+: first :: cs) :
    ∃ tail, cs.dropWhile Char.isDigit = '.' :: tail ∧
      d.whole = first :: cs.takeWhile Char.isDigit ∧ d.fraction ++ d.power <+: tail := by
  obtain ⟨after, split⟩ := isPrefix
  obtain ⟨digit, more, isWhole, -, areDigits⟩ := d.whole_digits.exists_cons
  rw [text, isWhole, List.cons_append, List.cons_append, List.append_assoc] at split
  obtain ⟨rfl, rfl⟩ := List.cons.inj split
  have point : ('.' :: (d.fraction ++ d.power) ++ after).head?.any Char.isDigit = false := rfl
  obtain ⟨taken, dropped⟩ := span_kind areDigits point
  exact ⟨_, dropped, by rw [isWhole, taken], List.prefix_append _ _⟩

/-- The fraction and the power of a number are no longer than what is scanned for them. -/
theorem length_fraction_power_le (isPrefix : d.fraction ++ d.power <+: tail) :
    d.fraction.length + d.power.length ≤ (tail.takeWhile Char.isDigit).length +
      (exponentPart (tail.dropWhile Char.isDigit)).1.length := by
  cases d with
  | mk whole fraction power exponent _ fraction_digits isPower =>
    cases isPower with
    | none =>
      rw [List.append_nil] at isPrefix
      exact Nat.le_add_right_of_le (length_le_takeWhile fraction_digits.2 isPrefix)
    | @mk mark sign digits isMark isSign areDigits =>
      obtain ⟨after, rfl⟩ := isPrefix
      have noDigit : (mark :: (sign ++ digits) ++ after).head?.any Char.isDigit = false := by
        simp only [List.mem_cons, List.not_mem_nil, or_false] at isMark
        rcases isMark with rfl | rfl <;> rfl
      obtain ⟨taken, dropped⟩ := span_kind fraction_digits.2 noDigit
      rw [List.append_assoc, taken, dropped]
      have isPower := Power.mk isMark isSign areDigits
      exact Nat.add_le_add_left (isPower.length_le (List.prefix_append _ _)) _

end Decimal

end Numbers

end StreamSynth.Lexer
