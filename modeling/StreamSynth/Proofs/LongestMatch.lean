import StreamSynth.Proofs.LexicalRule
import StreamSynth.Proofs.Simplification

/-!
# Lexing takes the longest match

At every place where an item starts, the longest text that any rule matches is taken from the
source, and the rule tells what becomes of it. Where no rule matches, the item is an error: what
there is of an unfinished string literal, or else one character. One text can match two rules, those
of a keyword and of a name. It is a keyword, except right before a point, where it is a name.
-/

namespace StreamSynth.Lexer

/-- No rule matches a longer prefix of what starts with the text. -/
def NoLonger (text after : List Char) : Prop :=
  ∀ (rule : Rule) (other : List Char), rule.Matches other → other <+: text ++ after →
    other.length ≤ text.length

def Unmatched (cs : List Char) : Prop :=
  ∀ (rule : Rule) (text : List Char), rule.Matches text → ¬ text <+: cs

/-- Whether the rule is taken where a keyword and a name match the same text. -/
def Rule.Wins (text after : List Char) : Rule → Prop
  | keyword _ => after.head? ≠ some '.'
  | ident => (∃ word : Keyword, text = word.spelling.toList) → after.head? = some '.'
  | _ => True

inductive Rule.Yields : Rule → List Char → LexemeKind → Prop
  | blanks {text} : Yields .blanks text .skipped
  | comment {text} : Yields .comment text .skipped
  | keyword {word text} : Yields (.keyword word) text (.token (.keyword word))
  | symbol {sign text} : Yields (.symbol sign) text (.token (.symbol sign))
  | int {text} {value : Int64} : value.toInt = digitsValue text →
      Yields .int text (.token (.int value))
  | tooLarge {text} : Int64.maxValue.toInt < digitsValue text → Yields .int text .invalid
  | double {d : Decimal} : Yields .double d.text (.token (.double (.ofDecimal d.digits d.scale)))
  | single {d : Decimal} :
      Yields .single (d.text ++ ['f']) (.token (.single (.ofDecimalSingle d.digits d.scale)))
  | string {parts : List StringPart} : parts.all StringPart.isKnown = true →
      Yields .string ('"' :: (parts.flatMap StringPart.text ++ ['"']))
        (.token (.string (String.ofList (parts.map StringPart.char))))
  | badEscape {parts : List StringPart} : parts.all StringPart.isKnown = false →
      Yields .string ('"' :: (parts.flatMap StringPart.text ++ ['"'])) .invalid
  | ident {text} : Yields .ident text (.token (.ident (String.ofList text)))

/-- The item at the start of a source: its text, what stands behind it, and what becomes of it. -/
inductive Takes : List Char → List Char → LexemeKind → Prop
  | matched {rule : Rule} {text after kind} : rule.Matches text → NoLonger text after →
      rule.Wins text after → rule.Yields text kind → Takes text after kind
  | unfinished {parts : List StringPart} {after} :
      Unmatched ('"' :: (parts.flatMap StringPart.text ++ after)) →
      (∀ others : List StringPart,
        others.flatMap StringPart.text <+: parts.flatMap StringPart.text ++ after →
        (others.flatMap StringPart.text).length ≤ (parts.flatMap StringPart.text).length) →
      Takes ('"' :: parts.flatMap StringPart.text) after .invalid
  | stray {c after} : Unmatched (c :: after) → c ≠ '"' → Takes [c] after .invalid

variable {first : Char} {cs : List Char}

section Bounds

def Bounds (first : Char) (cs : List Char) (length : Nat) : Prop :=
  ∀ (rule : Rule) (text : List Char), CharClass.of first = rule.charClass → rule.Matches text →
    text <+: first :: cs → text.length ≤ length

theorem noLonger_next {more : List Char} {kind : LexemeKind}
    (isNext : next first cs = ⟨first, more, kind⟩) (bounds : Bounds first cs (more.length + 1)) :
    NoLonger (first :: more) (cs.drop more.length) := by
  have isSource := text_next_append first cs
  rw [behind, isNext, Lexeme.text] at isSource
  intro rule text matched isPrefix
  rw [isSource] at isPrefix
  obtain ⟨c, others, rfl, isClass⟩ := matched.exists_cons
  obtain ⟨rfl, -⟩ := List.cons_prefix_cons.mp isPrefix
  exact bounds rule _ isClass matched isPrefix

theorem takes_of_next {rule : Rule} {more : List Char} {kind : LexemeKind}
    (isNext : next first cs = ⟨first, more, kind⟩) (matched : rule.Matches (first :: more))
    (bounds : Bounds first cs (more.length + 1))
    (wins : rule.Wins (first :: more) (cs.drop more.length))
    (yields : rule.Yields (first :: more) kind) :
    Takes (next first cs).text (behind first cs) (next first cs).kind := by
  rw [behind, isNext]
  exact .matched matched (noLonger_next isNext bounds) wins yields

theorem unmatched_cons
    (noRule : ∀ (rule : Rule) (text : List Char), CharClass.of first = rule.charClass →
      rule.Matches text → ¬ text <+: first :: cs) : Unmatched (first :: cs) := by
  intro rule text matched isPrefix
  obtain ⟨c, more, rfl, isClass⟩ := matched.exists_cons
  obtain ⟨rfl, -⟩ := List.cons_prefix_cons.mp isPrefix
  exact noRule rule _ isClass matched isPrefix

end Bounds

section Blanks

theorem takes_blanks (blank : isBlank first = true) (cs : List Char) :
    Takes (next first cs).text (behind first cs) (next first cs).kind := by
  have isNext : next first cs = ⟨first, cs.takeWhile isBlank, .skipped⟩ := by
    rw [next, if_pos blank]
  have isClass : CharClass.of first = .blank := by rw [CharClass.of, if_pos blank]
  have matched : Rule.Matches .blanks (first :: cs.takeWhile isBlank) := by
    refine ⟨List.cons_ne_nil _ _, List.forall_mem_cons.mpr ⟨blank, ?_⟩⟩
    exact List.all_eq_true.mp List.all_takeWhile
  have bounds : Bounds first cs ((cs.takeWhile isBlank).length + 1) := by
    intro rule text sameClass matched isPrefix
    rw [isClass] at sameClass
    cases rule with
    | blanks =>
      have bound := length_le_takeWhile matched.2 isPrefix
      rwa [List.takeWhile_cons_of_pos blank] at bound
    | _ => cases sameClass
  exact takes_of_next isNext matched bounds trivial .blanks

end Blanks

section Words

theorem bounds_word (starts : isWordStart first = true) (cs : List Char) :
    Bounds first cs ((identTail cs).length + 1) := by
  intro rule text sameClass matched isPrefix
  rw [of_isWordStart starts] at sameClass
  have isWord : IsWord text := by
    cases rule with
    | keyword word =>
      rw [Rule.Matches] at matched
      rw [matched]
      exact isWord_spelling word
    | ident => exact matched
    | _ => cases sameClass
  obtain ⟨c, more, rfl, -⟩ := isWord.exists_cons
  obtain ⟨-, moreIsPrefix⟩ := List.cons_prefix_cons.mp isPrefix
  exact Nat.succ_le_succ (isWord.length_le moreIsPrefix)

theorem takes_word (starts : isWordStart first = true) (cs : List Char) :
    Takes (next first cs).text (behind first cs) (next first cs).kind := by
  have isNext := next_of_isWordStart starts cs
  have isIdent : Rule.Matches .ident (first :: identTail cs) := isWord_identTail starts cs
  have bounds := bounds_word starts cs
  rw [wordLexeme] at isNext
  split at isNext
  · next point =>
    exact takes_of_next isNext isIdent bounds (fun _ => point) .ident
  · next noPoint =>
    split at isNext
    · next word isKeyword =>
      have matched : Rule.Matches (.keyword word) (first :: identTail cs) := by
        rw [Rule.Matches, ofWord?_eq_some_iff.mp isKeyword, String.toList_ofList]
      exact takes_of_next isNext matched bounds noPoint .keyword
    · next noKeyword =>
      refine takes_of_next isNext isIdent bounds ?_ .ident
      rintro ⟨word, isSpelling⟩
      rw [isSpelling, String.ofList_toList, ofWord?_eq_some_iff.mpr rfl] at noKeyword
      cases noKeyword

end Words

section Numbers

def Decimal.scanned {whole tail : List Char} (whole_digits : IsDigits whole)
    (nonempty : tail.takeWhile Char.isDigit ≠ []) : Decimal where
  whole := whole
  fraction := tail.takeWhile Char.isDigit
  power := (exponentPart (tail.dropWhile Char.isDigit)).1
  exponent := (exponentPart (tail.dropWhile Char.isDigit)).2
  whole_digits := whole_digits
  fraction_digits := isDigits_of_takeWhile nonempty
  isPower := power_exponentPart _

theorem isDigits_cons_takeWhile (digit : first.isDigit = true) (cs : List Char) :
    IsDigits (first :: cs.takeWhile Char.isDigit) :=
  ⟨List.cons_ne_nil _ _,
    List.forall_mem_cons.mpr ⟨digit, List.all_eq_true.mp List.all_takeWhile⟩⟩

/-- The scanned number with a fraction is the longest one, and an `f` behind it is taken too. -/
theorem numberLexeme_fraction {tail : List Char} (digit : first.isDigit = true)
    (isRest : cs.dropWhile Char.isDigit = '.' :: tail)
    (nonempty : tail.takeWhile Char.isDigit ≠ []) :
    ∃ (d : Decimal) (more after : List Char), d.text = first :: more ∧ cs = more ++ after ∧
      (∀ other : Decimal, other.text <+: first :: cs → other.text.length ≤ d.text.length) ∧
      numberLexeme first cs = if after.head? = some 'f' then
          ⟨first, more ++ ['f'], .token (.single (.ofDecimalSingle d.digits d.scale))⟩
        else ⟨first, more, .token (.double (.ofDecimal d.digits d.scale))⟩ := by
  obtain ⟨after, isAfter⟩ := exponentPart_isPrefix (tail.dropWhile Char.isDigit)
  refine ⟨.scanned (isDigits_cons_takeWhile digit cs) nonempty, _, after, rfl, ?_, ?_, ?_⟩
  · calc cs
        = cs.takeWhile Char.isDigit ++ '.' :: tail := by
          rw [← isRest, List.takeWhile_append_dropWhile]
      _ = cs.takeWhile Char.isDigit ++ '.' :: (tail.takeWhile Char.isDigit ++
            ((exponentPart (tail.dropWhile Char.isDigit)).1 ++ after)) := by
          rw [isAfter, List.takeWhile_append_dropWhile]
      _ = _ := by simp [Decimal.scanned]
  · intro other isPrefix
    obtain ⟨_, sameRest, isWhole, moreIsPrefix⟩ := Decimal.split_of_text_prefix isPrefix
    obtain ⟨-, rfl⟩ := List.cons.inj (isRest.symm.trans sameRest)
    have bound := Decimal.length_fraction_power_le moreIsPrefix
    simp only [Decimal.text, Decimal.scanned, isWhole, List.length_append, List.length_cons]
    omega
  · have behindFraction : ('.' :: tail).drop ((tail.takeWhile Char.isDigit).length + 1) =
        tail.dropWhile Char.isDigit := by rw [List.drop_succ_cons, drop_length_takeWhile]
    have behindPower : (tail.dropWhile Char.isDigit).drop
        (exponentPart (tail.dropWhile Char.isDigit)).1.length = after := by
      have isDrop := congrArg (List.drop (exponentPart (tail.dropWhile Char.isDigit)).1.length)
        isAfter
      rw [List.drop_left] at isDrop
      exact isDrop.symm
    simp only [numberLexeme, isRest, List.isEmpty_iff, if_neg nonempty, behindFraction,
      fractionLexeme, behindPower]
    simp [Decimal.digits, Decimal.scale, Decimal.scanned]

theorem numberLexeme_whole (first : Char)
    (noFraction : ∀ tail, cs.dropWhile Char.isDigit = '.' :: tail →
      tail.takeWhile Char.isDigit = []) :
    ∃ kind, Rule.Yields .int (first :: cs.takeWhile Char.isDigit) kind ∧
      numberLexeme first cs = ⟨first, cs.takeWhile Char.isDigit, kind⟩ := by
  cases fits : int64? (digitsValue (first :: cs.takeWhile Char.isDigit)) with
  | some value =>
    refine ⟨.token (.int value), .int (int64?_eq_some_iff.mp fits), ?_⟩
    simp only [numberLexeme]
    split
    · next tail isRest => simp [noFraction tail isRest, fits]
    · simp [fits]
  | none =>
    have tooLarge := (int64?_eq_none_iff.mp fits).resolve_left (by rw [Int64.toInt_minValue]; omega)
    refine ⟨.invalid, .tooLarge tooLarge, ?_⟩
    simp only [numberLexeme]
    split
    · next tail isRest => simp [noFraction tail isRest, fits]
    · simp [fits]

theorem Decimal.exists_fraction {d : Decimal} (isPrefix : d.text <+: first :: cs) :
    ∃ tail, cs.dropWhile Char.isDigit = '.' :: tail ∧ tail.takeWhile Char.isDigit ≠ [] := by
  obtain ⟨tail, isRest, -, moreIsPrefix⟩ := split_of_text_prefix isPrefix
  have bound := length_le_takeWhile d.fraction_digits.2
    ((List.prefix_append _ _).trans moreIsPrefix)
  have positive := List.length_pos_iff.mpr d.fraction_digits.1
  exact ⟨tail, isRest, List.length_pos_iff.mp (Nat.lt_of_lt_of_le positive bound)⟩

theorem Decimal.length_le_of_isDigits {d : Decimal} {run after : List Char}
    (areDigits : IsDigits run) (isPrefix : run <+: d.text ++ after) :
    run.length ≤ d.text.length := by
  have point : ('.' :: (d.fraction ++ d.power) ++ after).head?.any Char.isDigit = false := rfl
  have bound := length_le_takeWhile areDigits.2 isPrefix
  rw [text, List.append_assoc, (span_kind d.whole_digits.2 point).1] at bound
  rw [text, List.length_append]
  exact Nat.le_add_right_of_le bound

/-- Behind the longest number with a fraction, a rule can take only an `f`. -/
theorem length_le_or_single {d : Decimal} {rule : Rule} {text after : List Char}
    (longest : ∀ other : Decimal, other.text <+: d.text ++ after →
      other.text.length ≤ d.text.length)
    (isClass : rule.charClass = .digit) (matched : rule.Matches text)
    (isPrefix : text <+: d.text ++ after) :
    text.length ≤ d.text.length ∨ text.length = d.text.length + 1 ∧ after.head? = some 'f' := by
  cases rule with
  | int => exact .inl (Decimal.length_le_of_isDigits matched isPrefix)
  | double =>
    obtain ⟨other, rfl⟩ := matched
    exact .inl (longest other isPrefix)
  | single =>
    obtain ⟨other, rfl⟩ := matched
    have bound := longest other ((List.prefix_append _ _).trans isPrefix)
    rw [List.length_append, List.length_singleton]
    rcases Nat.lt_or_eq_of_le bound with shorter | sameLength
    · exact .inl shorter
    · -- The two numbers are the same, so the `f` stands behind the longest one.
      obtain ⟨rest, isSource⟩ := isPrefix
      rw [List.append_assoc] at isSource
      obtain ⟨-, rfl⟩ := List.append_inj isSource sameLength
      exact .inr ⟨congrArg (· + 1) sameLength, rfl⟩
  | _ => cases isClass

theorem takes_decimal {tail : List Char} (digit : first.isDigit = true)
    (isRest : cs.dropWhile Char.isDigit = '.' :: tail)
    (nonempty : tail.takeWhile Char.isDigit ≠ []) :
    Takes (next first cs).text (behind first cs) (next first cs).kind := by
  obtain ⟨d, more, after, isText, rfl, longest, isLexeme⟩ :=
    numberLexeme_fraction digit isRest nonempty
  have isNext := (next_of_isDigit digit _).trans isLexeme
  have length_eq : d.text.length = more.length + 1 := by rw [isText, List.length_cons]
  have bound (rule : Rule) (text : List Char) (sameClass : CharClass.of first = rule.charClass)
      (matched : rule.Matches text) (isPrefix : text <+: first :: (more ++ after)) :
      text.length ≤ more.length + 1 ∨
        text.length = more.length + 1 + 1 ∧ after.head? = some 'f' := by
    rw [← List.cons_append, ← isText] at isPrefix longest
    rw [← length_eq]
    exact length_le_or_single longest (sameClass.symm.trans (of_isDigit digit)) matched isPrefix
  split at isNext
  · have matched : Rule.Matches .single (first :: (more ++ ['f'])) := ⟨d, by rw [isText]; rfl⟩
    have yields : Rule.Yields .single (d.text ++ ['f']) _ := .single
    have bounds : Bounds first (more ++ after) ((more ++ ['f']).length + 1) := by
      intro rule text sameClass matched isPrefix
      have := bound rule text sameClass matched isPrefix
      rw [List.length_append, List.length_singleton]
      omega
    rw [isText] at yields
    exact takes_of_next isNext matched bounds trivial yields
  · next noSingle =>
    have matched : Rule.Matches .double (first :: more) := ⟨d, isText.symm⟩
    have yields : Rule.Yields .double d.text _ := .double
    have bounds : Bounds first (more ++ after) (more.length + 1) := by
      intro rule text sameClass matched isPrefix
      have := bound rule text sameClass matched isPrefix
      exact this.resolve_right fun single => noSingle single.2
    rw [isText] at yields
    exact takes_of_next isNext matched bounds trivial yields

theorem takes_number (digit : first.isDigit = true) (cs : List Char) :
    Takes (next first cs).text (behind first cs) (next first cs).kind := by
  by_cases fraction : ∃ tail, cs.dropWhile Char.isDigit = '.' :: tail ∧
      tail.takeWhile Char.isDigit ≠ []
  · obtain ⟨tail, isRest, nonempty⟩ := fraction
    exact takes_decimal digit isRest nonempty
  have noFraction : ∀ tail, cs.dropWhile Char.isDigit = '.' :: tail →
      tail.takeWhile Char.isDigit = [] := by
    intro tail isRest
    exact Decidable.byContradiction fun nonempty => fraction ⟨tail, isRest, nonempty⟩
  obtain ⟨kind, yields, isLexeme⟩ := numberLexeme_whole first noFraction
  have isNext := (next_of_isDigit digit cs).trans isLexeme
  have matched : Rule.Matches .int (first :: cs.takeWhile Char.isDigit) :=
    isDigits_cons_takeWhile digit cs
  have bounds : Bounds first cs ((cs.takeWhile Char.isDigit).length + 1) := by
    intro rule text sameClass matched isPrefix
    rw [of_isDigit digit] at sameClass
    cases rule with
    | int =>
      have bound := length_le_takeWhile matched.2 isPrefix
      rwa [List.takeWhile_cons_of_pos digit] at bound
    | double =>
      obtain ⟨d, rfl⟩ := matched
      exact absurd (Decimal.exists_fraction isPrefix) fraction
    | single =>
      obtain ⟨d, rfl⟩ := matched
      have decimalIsPrefix := (List.prefix_append d.text ['f']).trans isPrefix
      exact absurd (Decimal.exists_fraction decimalIsPrefix) fraction
    | _ => cases sameClass
  exact takes_of_next isNext matched bounds trivial yields

end Numbers

section Strings

/-- A string literal at the start of a text is the one that is scanned. -/
theorem stringBody_of_isPrefix {parts : List StringPart}
    (isPrefix : parts.flatMap StringPart.text ++ ['"'] <+: cs) :
    stringBody cs = (parts.flatMap StringPart.text, true) := by
  obtain ⟨rest, rfl⟩ := isPrefix
  rw [List.append_assoc, stringBody_append]
  simp [stringBody]

/-- String literals are the only texts of a rule that start with a quote. -/
theorem stringBody_of_matches {rule : Rule} {text : List Char}
    (sameClass : CharClass.of '"' = rule.charClass) (matched : rule.Matches text)
    (isPrefix : text <+: '"' :: cs) :
    (stringBody cs).2 = true ∧ text = '"' :: ((stringBody cs).1 ++ ['"']) := by
  cases rule with
  | string =>
    obtain ⟨parts, rfl⟩ := matched
    obtain ⟨-, bodyIsPrefix⟩ := List.cons_prefix_cons.mp isPrefix
    rw [stringBody_of_isPrefix bodyIsPrefix]
    exact ⟨rfl, rfl⟩
  | _ => cases sameClass

theorem takes_string (cs : List Char) :
    Takes (next '"' cs).text (behind '"' cs) (next '"' cs).kind := by
  have isNext : next '"' cs = stringLexeme '"' cs := rfl
  obtain ⟨parts, areParts⟩ := exists_parts_stringBody cs
  cases isBody : stringBody cs with
  | mk body closed =>
    rw [isBody] at areParts
    subst areParts
    rw [stringLexeme, isBody] at isNext
    cases closed with
    | true =>
      have matched : Rule.Matches .string ('"' :: (parts.flatMap StringPart.text ++ ['"'])) :=
        ⟨parts, rfl⟩
      have bounds : Bounds '"' cs ((parts.flatMap StringPart.text ++ ['"']).length + 1) := by
        intro rule text sameClass matched isPrefix
        obtain ⟨-, rfl⟩ := stringBody_of_matches sameClass matched isPrefix
        rw [isBody]
        exact Nat.le_refl _
      simp only [if_true, unescape_parts] at isNext
      cases known : parts.all StringPart.isKnown with
      | true =>
        simp only [known, if_true] at isNext
        exact takes_of_next isNext matched bounds trivial (.string known)
      | false =>
        simp only [known, Bool.false_eq_true, if_false] at isNext
        exact takes_of_next isNext matched bounds trivial (.badEscape known)
    | false =>
      simp only [Bool.false_eq_true, if_false] at isNext
      have unmatched : Unmatched ('"' :: cs) := by
        apply unmatched_cons
        intro rule text sameClass matched isPrefix
        obtain ⟨closed, -⟩ := stringBody_of_matches sameClass matched isPrefix
        rw [isBody] at closed
        cases closed
      have isSource : parts.flatMap StringPart.text ++ behind '"' cs = cs := by
        have isSource := text_next_append '"' cs
        rw [isNext] at isSource
        exact (List.cons.inj isSource).2
      rw [isNext]
      refine .unfinished (by rwa [isSource]) ?_
      -- Behind any parts at the start of the text, scanning goes on.
      rintro others ⟨rest, isOther⟩
      have goesOn := stringBody_append others rest
      rw [isOther, isSource, isBody] at goesOn
      rw [(Prod.mk.inj goesOn).1, List.length_append]
      exact Nat.le_add_right _ _

end Strings

section Signs

theorem spelling_of_ofPair? {c d : Char} {sign : Symbol} (isPair : Symbol.ofPair? c d = some sign) :
    sign.spelling.toList = [c, d] := by
  unfold Symbol.ofPair? at isPair
  split at isPair <;> cases isPair <;> rfl

theorem spelling_of_ofChar? {c : Char} {sign : Symbol} (isSign : Symbol.ofChar? c = some sign) :
    sign.spelling.toList = [c] := by
  unfold Symbol.ofChar? at isSign
  split at isSign <;> cases isSign <;> rfl

theorem next_of_sign (isClass : CharClass.of first = .sign) (cs : List Char) :
    next first cs = if first = '/' ∧ cs.head? = some '/' then
      ⟨first, cs.takeWhile (· ≠ '\n'), .skipped⟩ else symbolLexeme first cs := by
  unfold CharClass.of at isClass
  grind [next]

/-- What can start with a sign, where no comment does. -/
theorem symbol_of_matches {rule : Rule} {text : List Char} (isClass : CharClass.of first = .sign)
    (noComment : ¬(first = '/' ∧ cs.head? = some '/'))
    (sameClass : CharClass.of first = rule.charClass) (matched : rule.Matches text)
    (isPrefix : text <+: first :: cs) :
    (∃ sign, text = [first] ∧ Symbol.ofChar? first = some sign) ∨
      ∃ second sign, text = [first, second] ∧ cs.head? = some second ∧
        Symbol.ofPair? first second = some sign := by
  rw [isClass] at sameClass
  cases rule with
  | comment =>
    obtain ⟨body, rfl, -⟩ := matched
    obtain ⟨rfl, moreIsPrefix⟩ := List.cons_prefix_cons.mp isPrefix
    obtain ⟨rest, rfl⟩ := moreIsPrefix
    exact absurd ⟨rfl, rfl⟩ noComment
  | symbol sign =>
    rw [Rule.Matches] at matched
    rcases spelling_cases sign with ⟨c, isSpelling, isSign⟩ | ⟨c, d, isSpelling, isPair⟩
    · rw [matched, isSpelling] at isPrefix
      obtain ⟨rfl, -⟩ := List.cons_prefix_cons.mp isPrefix
      exact .inl ⟨sign, matched.trans isSpelling, isSign⟩
    · rw [matched, isSpelling] at isPrefix
      obtain ⟨rfl, moreIsPrefix⟩ := List.cons_prefix_cons.mp isPrefix
      obtain ⟨rest, rfl⟩ := moreIsPrefix
      exact .inr ⟨d, sign, matched.trans isSpelling, rfl, isPair⟩
  | _ => cases sameClass

theorem takes_comment (tail : List Char) :
    Takes (next '/' ('/' :: tail)).text (behind '/' ('/' :: tail))
      (next '/' ('/' :: tail)).kind := by
  have isNext : next '/' ('/' :: tail) = ⟨'/', '/' :: tail.takeWhile (· ≠ '\n'), .skipped⟩ := rfl
  have matched : Rule.Matches .comment ('/' :: '/' :: tail.takeWhile (· ≠ '\n')) := by
    refine ⟨_, rfl, ?_⟩
    intro c membership
    simpa using List.all_eq_true.mp List.all_takeWhile c membership
  have bounds : Bounds '/' ('/' :: tail) ((tail.takeWhile (· ≠ '\n')).length + 1 + 1) := by
    intro rule text sameClass matched isPrefix
    cases rule with
    | comment =>
      obtain ⟨body, rfl, noLineEnd⟩ := matched
      obtain ⟨-, moreIsPrefix⟩ := List.cons_prefix_cons.mp isPrefix
      obtain ⟨-, bodyIsPrefix⟩ := List.cons_prefix_cons.mp moreIsPrefix
      have areKind : ∀ c ∈ body, decide (c ≠ '\n') = true := fun c membership =>
        decide_eq_true (noLineEnd c membership)
      exact Nat.succ_le_succ (Nat.succ_le_succ (length_le_takeWhile areKind bodyIsPrefix))
    | symbol sign =>
      rw [Rule.Matches] at matched
      rcases spelling_cases sign with ⟨c, isSpelling, -⟩ | ⟨c, d, isSpelling, -⟩ <;>
        rw [matched, isSpelling] <;> simp only [List.length_cons, List.length_nil] <;> omega
    | _ => cases sameClass
  exact takes_of_next isNext matched bounds trivial .comment

theorem takes_sign (isClass : CharClass.of first = .sign) (cs : List Char) :
    Takes (next first cs).text (behind first cs) (next first cs).kind := by
  by_cases slashes : first = '/' ∧ cs.head? = some '/'
  · obtain ⟨rfl, isHead⟩ := slashes
    obtain ⟨tail, rfl⟩ := List.head?_eq_some_iff.mp isHead
    exact takes_comment tail
  have isNext : next first cs = symbolLexeme first cs := by
    rw [next_of_sign isClass, if_neg slashes]
  rw [symbolLexeme] at isNext
  split at isNext
  · next second sign isPair =>
    obtain ⟨_, -, isFound⟩ := Option.bind_eq_some_iff.mp isPair
    obtain ⟨_, isSign, ⟨⟩⟩ := Option.map_eq_some_iff.mp isFound
    have matched : Rule.Matches (.symbol sign) [first, second] := (spelling_of_ofPair? isSign).symm
    have bounds : Bounds first cs 2 := by
      intro rule text sameClass matched isPrefix
      rcases symbol_of_matches isClass slashes sameClass matched isPrefix with
        ⟨_, rfl, -⟩ | ⟨_, _, rfl, -⟩
      · exact Nat.le_succ 1
      · exact Nat.le_refl 2
    exact takes_of_next isNext matched bounds trivial .symbol
  · next isPair =>
    have noPair : ∀ second sign, cs.head? = some second →
        Symbol.ofPair? first second ≠ some sign := by
      intro second sign isHead isSign
      rw [isHead, Option.bind_some, isSign] at isPair
      cases isPair
    split at isNext
    · next sign isSign =>
      have matched : Rule.Matches (.symbol sign) [first] := (spelling_of_ofChar? isSign).symm
      have bounds : Bounds first cs 1 := by
        intro rule text sameClass matched isPrefix
        rcases symbol_of_matches isClass slashes sameClass matched isPrefix with
          ⟨_, rfl, -⟩ | ⟨second, sign, -, isHead, isSign⟩
        · exact Nat.le_refl 1
        · exact absurd isSign (noPair second sign isHead)
      exact takes_of_next isNext matched bounds trivial .symbol
    · next noSign =>
      have unmatched : Unmatched (first :: cs) := by
        apply unmatched_cons
        intro rule text sameClass matched isPrefix
        rcases symbol_of_matches isClass slashes sameClass matched isPrefix with
          ⟨sign, -, isSign⟩ | ⟨second, sign, -, isHead, isSign⟩
        · rw [noSign] at isSign
          cases isSign
        · exact noPair second sign isHead isSign
      have notQuote : first ≠ '"' := by
        rintro rfl
        cases isClass
      rw [behind, isNext]
      exact .stray unmatched notQuote

end Signs

theorem takes_next (first : Char) (cs : List Char) :
    Takes (next first cs).text (behind first cs) (next first cs).kind := by
  by_cases blank : isBlank first = true
  · exact takes_blanks blank cs
  by_cases digit : first.isDigit = true
  · exact takes_number digit cs
  by_cases isQuote : first = '"'
  · subst isQuote
    exact takes_string cs
  by_cases starts : isWordStart first = true
  · exact takes_word starts cs
  · have isClass : CharClass.of first = .sign := by
      rw [CharClass.of, if_neg blank, if_neg digit, if_neg isQuote, if_neg starts]
    exact takes_sign isClass cs

inductive Lexes : Nat → List Char → Lexed → Prop
  | nothing {offset} : Lexes offset [] ⟨[], []⟩
  | skip {offset text after later} : Takes text after .skipped →
      Lexes (offset + byteLength text) after later → Lexes offset (text ++ after) later
  | token {offset text after t later} : Takes text after (.token t) →
      Lexes (offset + byteLength text) after later →
      Lexes offset (text ++ after)
        { later with tokens := (t, ⟨offset, offset + byteLength text⟩) :: later.tokens }
  | error {offset text after later} : Takes text after .invalid →
      Lexes (offset + byteLength text) after later →
      Lexes offset (text ++ after)
        { later with errors := ⟨⟨offset, offset + byteLength text⟩, text⟩ :: later.errors }

theorem lexes_collect (offset : Nat) (cs : List Char) :
    Lexes offset cs (collect offset (lexemes cs)) := by
  induction cs using byLexemes generalizing offset with
  | nil =>
    rw [lexemes]
    exact .nothing
  | cons first cs inductionHypothesis =>
    have takes := takes_next first cs
    have later := inductionHypothesis (offset + byteLength (next first cs).text)
    rw [lexemes_cons, collect, ← text_next_append first cs]
    split
    · next isSkipped => exact .skip (isSkipped ▸ takes) later
    · next isToken => exact .token (isToken ▸ takes) later
    · next isInvalid => exact .error (isInvalid ▸ takes) later

end StreamSynth.Lexer

namespace StreamSynth

open Lexer

/-- A source is lexed by taking the longest match item by item, up to its end. -/
theorem lex_takes_longest (source : String) : Lexes 0 source.toList (lex source) :=
  lexes_collect 0 source.toList

/-- The rule of a keyword matches the longest text at the start of the source as well, but right
before a point it is taken as a name. -/
theorem keyword_taken_as_name :
    (Rule.keyword .forLoop).Matches "for".toList ∧ NoLonger "for".toList ".".toList ∧
      (lex "for.").tokens = [(.ident "for", ⟨0, 3⟩)] := by
  have isNext : next 'f' ['o', 'r', '.'] = ⟨'f', ['o', 'r'], .token (.ident "for")⟩ := by
    decide +kernel
  exact ⟨rfl, noLonger_next isNext (bounds_word rfl _), by decide +kernel⟩

end StreamSynth
