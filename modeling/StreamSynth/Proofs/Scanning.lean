import StreamSynth.Proofs.Digits
import StreamSynth.Proofs.QuotedText
import StreamSynth.Proofs.SourceCover

/-!
# Texts that are lexed as they were written

A token is read back from its text when what follows cannot make the lexeme longer. For names and
numbers that is a blank or a sign of punctuation, for signs anything but another sign. String
literals and blanks end by themselves. Texts that are read back in front of every delimiter can be
put together, which is how longer texts are shown to be.
-/

namespace StreamSynth.Lexer

/-- The text is lexed without an error as the given tokens, wherever it starts. -/
def Scans (cs : List Char) (ts : List Token) : Prop :=
  ∀ offset, (collect offset (lexemes cs)).errors = [] ∧
    (collect offset (lexemes cs)).tokens.map Prod.fst = ts

def delimiters : List Char := ['(', ')', '<', '>', ',', ';', ' ']

def Delimits (rest : List Char) : Prop := ∀ c, rest.head? = some c → c ∈ delimiters

def Plain (rest : List Char) : Prop := ∀ c, rest.head? = some c → c ≠ '=' ∧ c ≠ '/'

section Follow

variable {c : Char} {rest : List Char}

theorem delimits_cons (isDelimiter : c ∈ delimiters) (rest : List Char) : Delimits (c :: rest) := by
  rintro _ ⟨⟩
  exact isDelimiter

theorem plain_cons (notSign : c ≠ '=' ∧ c ≠ '/') (rest : List Char) : Plain (c :: rest) := by
  rintro _ ⟨⟩
  exact notSign

theorem not_lexeme_of_delimiter (isDelimiter : c ∈ delimiters) :
    isWordPart c = false ∧ c.isDigit = false ∧ c ≠ '.' ∧ c ≠ '=' ∧ c ≠ '/' := by
  simp only [delimiters, List.mem_cons, List.not_mem_nil, or_false] at isDelimiter
  rcases isDelimiter with rfl | rfl | rfl | rfl | rfl | rfl | rfl <;> decide

theorem Delimits.plain (delimits : Delimits rest) : Plain rest := by
  intro c isHead
  obtain ⟨-, -, -, notSign⟩ := not_lexeme_of_delimiter (delimits c isHead)
  exact notSign

theorem Delimits.head_ne_point (delimits : Delimits rest) : rest.head? ≠ some '.' := by
  intro isHead
  exact absurd (delimits '.' isHead) (by decide)

end Follow

section Scans

variable {rest : List Char} {ts : List Token}

theorem scans_nil : Scans [] [] := by
  intro offset
  simp [lexemes, collect]

theorem Scans.token {first : Char} {more : List Char} {token : Token} (scans : Scans rest ts)
    (isNext : next first (more ++ rest) = ⟨first, more, .token token⟩) :
    Scans (first :: more ++ rest) (token :: ts) := by
  intro offset
  obtain ⟨noErrors, isTokens⟩ := scans (offset + byteLength (first :: more))
  rw [List.cons_append, lexemes_cons, behind, isNext, List.drop_left]
  exact ⟨noErrors, congrArg (token :: ·) isTokens⟩

theorem lexemes_blanks {c : Char} (blank : isBlank c = true) (rest : List Char) :
    lexemes (c :: rest) =
      ⟨c, rest.takeWhile isBlank, .skipped⟩ :: lexemes (rest.dropWhile isBlank) := by
  have isNext : next c rest = ⟨c, rest.takeWhile isBlank, .skipped⟩ := by rw [next, if_pos blank]
  rw [lexemes_cons, behind, isNext, drop_length_takeWhile]

theorem Scans.blank (scans : Scans rest ts) : Scans (' ' :: rest) ts := by
  intro offset
  rw [lexemes_blanks rfl]
  cases rest with
  | nil => exact scans _
  | cons c rest =>
    cases blank : isBlank c with
    | true =>
      -- The blank makes the run of blanks longer that the rest starts with.
      rw [List.takeWhile_cons_of_pos blank, List.dropWhile_cons_of_pos blank]
      have later := scans (offset + byteLength [' '])
      rw [lexemes_blanks blank] at later
      simpa only [collect, Lexeme.text, byteLength, Nat.add_assoc, Nat.add_zero] using later
    | false =>
      rw [List.dropWhile_cons_of_neg (by simp [blank])]
      exact scans _

theorem not_isBlank_of {p : Char → Bool} {c : Char} (holds : p c = true)
    (noBlank : [' ', '\t', '\r', '\n'].any p = false) : isBlank c = false := by
  rw [Bool.eq_false_iff]
  intro blank
  have isBlank : c ∈ [' ', '\t', '\r', '\n'] := by simpa [isBlank, or_assoc] using blank
  exact List.any_eq_false.mp noBlank c isBlank holds

end Scans

section Signs

variable {c d : Char} {rest : List Char} {ts : List Token} {sign : Symbol}

theorem next_of_ofChar? (isSign : Symbol.ofChar? c = some sign) (cs : List Char)
    (noComment : cs.head? ≠ some '/') : next c cs = symbolLexeme c cs := by
  have noLexeme : isBlank c = false ∧ c.isDigit = false ∧ c ≠ '"' ∧ isWordStart c = false := by
    unfold Symbol.ofChar? at isSign
    split at isSign <;> first | decide | cases isSign
  obtain ⟨notBlank, notDigit, notQuote, notWord⟩ := noLexeme
  simp [next, notBlank, notDigit, notQuote, notWord, noComment]

theorem ofPair?_eq_none (isSign : Symbol.ofChar? c = some sign) (notEqual : d ≠ '=') :
    Symbol.ofPair? c d = none := by
  unfold Symbol.ofPair?
  split <;> first | rfl | exact absurd rfl notEqual | cases isSign

theorem Scans.symbol (scans : Scans rest ts) (isSign : Symbol.ofChar? c = some sign)
    (plain : Plain rest) : Scans (c :: rest) (.symbol sign :: ts) := by
  have noComment : rest.head? ≠ some '/' := fun isHead => (plain _ isHead).2 rfl
  have noPair : rest.head?.bind (fun d => (Symbol.ofPair? c d).map (d, ·)) = none := by
    cases isHead : rest.head? with
    | none => rfl
    | some d => simp [ofPair?_eq_none isSign (plain d isHead).1]
  have isNext : next c ([] ++ rest) = ⟨c, [], .token (.symbol sign)⟩ := by
    rw [List.nil_append, next_of_ofChar? isSign rest noComment, symbolLexeme, noPair, isSign]
  exact scans.token isNext

theorem Scans.pair (scans : Scans rest ts) (isPair : Symbol.ofPair? c d = some sign) :
    Scans (c :: d :: rest) (.symbol sign :: ts) := by
  have isNext : next c ([d] ++ rest) = ⟨c, [d], .token (.symbol sign)⟩ := by
    unfold Symbol.ofPair? at isPair
    split at isPair <;> cases isPair <;> rfl
  exact scans.token isNext

theorem spelling_cases (sign : Symbol) :
    (∃ c, sign.spelling.toList = [c] ∧ Symbol.ofChar? c = some sign) ∨
      ∃ c d, sign.spelling.toList = [c, d] ∧ Symbol.ofPair? c d = some sign := by
  cases sign <;> first | exact .inl ⟨_, rfl, rfl⟩ | exact .inr ⟨_, _, rfl, rfl⟩

/-- The spelling of a sign is lexed as the sign in front of what ends it. -/
theorem Scans.spelling (scans : Scans rest ts) (sign : Symbol) (plain : Plain rest) :
    Scans (sign.spelling.toList ++ rest) (.symbol sign :: ts) := by
  rcases spelling_cases sign with ⟨c, isSpelling, isSign⟩ | ⟨c, d, isSpelling, isPair⟩
  · rw [isSpelling]
    exact scans.symbol isSign plain
  · rw [isSpelling]
    exact scans.pair isPair

end Signs

section Words

/-- The shape of a name: a letter or underscore, word characters behind it, and parts of word
characters with a point in front of each. -/
def IsWord (cs : List Char) : Prop :=
  ∃ (first : Char) (word : List Char) (parts : List (List Char)),
    cs = first :: (word ++ parts.flatMap ('.' :: ·)) ∧ isWordStart first = true ∧
    (∀ c ∈ word, isWordPart c = true) ∧
    ∀ part ∈ parts, part ≠ [] ∧ ∀ c ∈ part, isWordPart c = true

theorem isWord_of_isWordPart {cs : List Char} (starts : cs.head?.any isWordStart = true)
    (areParts : cs.tail.all isWordPart = true) : IsWord cs := by
  obtain ⟨first, isHead, isStart⟩ := (Option.any_eq_true _ _).mp starts
  obtain ⟨tail, rfl⟩ := List.head?_eq_some_iff.mp isHead
  exact ⟨first, tail, [], by simp, isStart, List.all_eq_true.mp areParts, by simp⟩

theorem exists_parts_identTail (cs : List Char) :
    ∃ (word : List Char) (parts : List (List Char)),
      identTail cs = word ++ parts.flatMap ('.' :: ·) ∧ (∀ c ∈ word, isWordPart c = true) ∧
      ∀ part ∈ parts, part ≠ [] ∧ ∀ c ∈ part, isWordPart c = true := by
  fun_induction identTail cs with
  | case1 => exact ⟨[], [], by simp⟩
  | case2 c rest goesOn inductionHypothesis =>
    obtain ⟨word, parts, isTail, areParts, others⟩ := inductionHypothesis
    rw [isTail]
    cases isPart : isWordPart c with
    | true => exact ⟨c :: word, parts, rfl, List.forall_mem_cons.mpr ⟨isPart, areParts⟩, others⟩
    | false =>
      simp only [isPart, Bool.false_or, Bool.and_eq_true, decide_eq_true_eq] at goesOn
      obtain ⟨rfl, followed⟩ := goesOn
      refine ⟨[], word :: parts, rfl, by simp, List.forall_mem_cons.mpr ⟨⟨?_, areParts⟩, others⟩⟩
      -- A word character stands behind the point, and no part starts with one.
      rintro rfl
      obtain ⟨d, isHead, isPart⟩ := (Option.any_eq_true _ _).mp followed
      obtain ⟨more, rfl⟩ := List.head?_eq_some_iff.mp isHead
      rw [identTail, isPart, Bool.true_or, if_pos rfl] at isTail
      cases parts with
      | nil => cases isTail
      | cons part parts =>
        obtain ⟨rfl, -⟩ := List.cons_eq_cons.mp isTail
        cases isPart
  | case3 => exact ⟨[], [], by simp⟩

theorem isWord_identTail {first : Char} (starts : isWordStart first = true) (cs : List Char) :
    IsWord (first :: identTail cs) := by
  obtain ⟨word, parts, isTail, areParts, others⟩ := exists_parts_identTail cs
  exact ⟨first, word, parts, by rw [isTail], starts, areParts, others⟩

variable {first : Char} {rest : List Char}

theorem identTail_append {word : List Char} (areParts : ∀ c ∈ word, isWordPart c = true)
    (rest : List Char) : identTail (word ++ rest) = word ++ identTail rest := by
  induction word with
  | nil => rfl
  | cons c word inductionHypothesis =>
    obtain ⟨isPart, areParts⟩ := List.forall_mem_cons.mp areParts
    rw [List.cons_append, identTail, isPart, Bool.true_or, if_pos rfl,
      inductionHypothesis areParts, List.cons_append]

theorem identTail_parts {parts : List (List Char)}
    (areParts : ∀ part ∈ parts, part ≠ [] ∧ ∀ c ∈ part, isWordPart c = true) (rest : List Char) :
    identTail (parts.flatMap ('.' :: ·) ++ rest) =
      parts.flatMap ('.' :: ·) ++ identTail rest := by
  induction parts with
  | nil => rfl
  | cons part parts inductionHypothesis =>
    obtain ⟨⟨nonempty, isPart⟩, areOthers⟩ := List.forall_mem_cons.mp areParts
    obtain ⟨c, more, rfl⟩ := List.exists_cons_of_ne_nil nonempty
    have followed : isWordPart c = true := isPart c (by simp)
    rw [List.flatMap_cons, List.append_assoc, List.cons_append, identTail,
      if_pos (by simp [followed]), identTail_append isPart, inductionHypothesis areOthers,
      List.append_assoc]
    rfl

/-- A name goes on behind any text of its shape. -/
theorem IsWord.identTail_append {more : List Char} (isWord : IsWord (first :: more))
    (rest : List Char) : identTail (more ++ rest) = more ++ identTail rest := by
  obtain ⟨_, word, parts, isText, -, areParts, others⟩ := isWord
  obtain ⟨-, rfl⟩ := List.cons.inj isText
  rw [List.append_assoc, Lexer.identTail_append areParts, identTail_parts others,
    List.append_assoc]

theorem IsWord.exists_cons {cs : List Char} (isWord : IsWord cs) :
    ∃ first more, cs = first :: more ∧ isWordStart first = true := by
  obtain ⟨first, _, _, isText, starts, -⟩ := isWord
  exact ⟨first, _, isText, starts⟩

theorem isWord_spelling (keyword : Keyword) : IsWord keyword.spelling.toList := by
  apply isWord_of_isWordPart <;> cases keyword <;> decide

theorem Delimits.identTail_eq_nil (delimits : Delimits rest) : identTail rest = [] := by
  cases rest with
  | nil => rfl
  | cons c rest =>
    obtain ⟨notPart, -, notPoint, -⟩ := not_lexeme_of_delimiter (delimits c rfl)
    rw [identTail, if_neg (by simp [notPart, notPoint])]

theorem not_isDigit_of_isWordStart (starts : isWordStart first = true) :
    first.isDigit = false := by
  rw [Bool.eq_false_iff]
  intro digit
  have bounds : 48 ≤ first.toNat ∧ first.toNat ≤ 57 := Char.isDigit_iff_toNat.mp digit
  have digits : ∀ k < 10, isWordStart (Char.ofNat (48 + k)) = false := by decide
  have isFirst : Char.ofNat (48 + (first.toNat - 48)) = first := by
    rw [Nat.add_sub_cancel' bounds.1, Char.ofNat_toNat]
  rw [← isFirst, digits _ (by omega)] at starts
  cases starts

theorem next_of_isWordStart (starts : isWordStart first = true) (cs : List Char) :
    next first cs = wordLexeme first cs := by
  have notBlank : isBlank first = false := not_isBlank_of starts (by decide)
  have notDigit : first.isDigit = false := not_isDigit_of_isWordStart starts
  have notSlash : first ≠ '/' := by
    rintro rfl
    cases starts
  have notQuote : first ≠ '"' := by
    rintro rfl
    cases starts
  simp [next, notBlank, notDigit, notSlash, notQuote, starts]

theorem ofWord?_eq_some_iff {word : String} {keyword : Keyword} :
    Keyword.ofWord? word = some keyword ↔ keyword.spelling = word := by
  constructor
  · intro found
    simpa using List.find?_some found
  · rintro rfl
    cases keyword <;> decide

def wordToken (word : String) : Token := (Keyword.ofWord? word).elim (.ident word) .keyword

theorem wordLexeme_eq {tail : List Char} (isTail : identTail (tail ++ rest) = tail)
    (delimits : Delimits rest) : wordLexeme first (tail ++ rest) =
      ⟨first, tail, .token (wordToken (String.ofList (first :: tail)))⟩ := by
  rw [wordLexeme, isTail, List.drop_left, if_neg delimits.head_ne_point, wordToken]
  cases Keyword.ofWord? (String.ofList (first :: tail)) <;> rfl

end Words

section Numbers

variable {first : Char} {rest digits : List Char}

theorem Delimits.not_digit (delimits : Delimits rest) : rest.head?.any Char.isDigit = false := by
  cases rest with
  | nil => rfl
  | cons c rest => exact (not_lexeme_of_delimiter (delimits c rfl)).2.1

theorem next_of_isDigit (digit : first.isDigit = true) (cs : List Char) :
    next first cs = numberLexeme first cs := by
  have notBlank : isBlank first = false := not_isBlank_of digit (by decide)
  have notSlash : first ≠ '/' := by
    rintro rfl
    cases digit
  simp [next, notBlank, notSlash, digit]

theorem numberLexeme_eq {value : Int64} (areDigits : ∀ c ∈ digits, c.isDigit = true)
    (delimits : Delimits rest) (fits : int64? (digitsValue (first :: digits)) = some value) :
    numberLexeme first (digits ++ rest) = ⟨first, digits, .token (.int value)⟩ := by
  obtain ⟨whole, behind⟩ := span_kind areDigits delimits.not_digit
  simp only [numberLexeme, whole, behind]
  split
  · exact absurd rfl delimits.head_ne_point
  · simp [fits]

end Numbers

section Strings

variable {text rest : List Char}

def IsQuotable (c : Char) : Prop := (32 ≤ c.toNat ∧ c.toNat < 127) ∨ c = '\n'

instance : DecidablePred IsQuotable := fun c =>
  inferInstanceAs (Decidable ((32 ≤ c.toNat ∧ c.toNat < 127) ∨ c = '\n'))

/-- A quotable character stands for itself, or for it stands a letter behind a backslash. -/
theorem escape_cases {c : Char} (quotable : IsQuotable c) :
    (∃ letter, Quoted.escape c = ['\\', letter] ∧ letter ≠ '\n' ∧
        ∀ cs, unescape ('\\' :: letter :: cs) = (unescape cs).map (c :: ·)) ∨
      (Quoted.escape c = [c] ∧ c ≠ '"' ∧ c ≠ '\\') := by
  cases Quoted.written c with
  | itself notQuote notBackslash _ escape_eq => exact .inr ⟨escape_eq, notQuote, notBackslash⟩
  | letter letter isLetter escape_eq =>
    simp only [Quoted.letterEscapes, List.mem_cons, Prod.mk.injEq, List.not_mem_nil,
      or_false] at isLetter
    rcases isLetter with ⟨rfl, rfl⟩ | ⟨rfl, rfl⟩ | ⟨rfl, rfl⟩ | unquotable
    · exact .inl ⟨'"', escape_eq, by decide, fun _ => rfl⟩
    · exact .inl ⟨'\\', escape_eq, by decide, fun _ => rfl⟩
    · exact .inl ⟨'n', escape_eq, by decide, fun _ => rfl⟩
    · rcases unquotable with ⟨_, rfl⟩ | ⟨_, rfl⟩ | ⟨_, rfl⟩
      all_goals exact absurd quotable (by decide)
  | codePoint notShown noLetter _ =>
    rcases quotable with ⟨low, high⟩ | rfl
    · exact absurd ⟨low, by omega, by omega⟩ notShown
    · exact absurd (by decide) (noLetter 'n')

theorem stringBody_escaped (quotable : ∀ c ∈ text, IsQuotable c) (rest : List Char) :
    stringBody (text.flatMap Quoted.escape ++ '"' :: rest) =
      (text.flatMap Quoted.escape, true) := by
  induction text with
  | nil => rfl
  | cons c text inductionHypothesis =>
    obtain ⟨isQuotable, quotable⟩ := List.forall_mem_cons.mp quotable
    have later := inductionHypothesis quotable
    rw [List.flatMap_cons, List.append_assoc]
    rcases escape_cases isQuotable with
      ⟨letter, isEscape, noLineEnd, -⟩ | ⟨isEscape, noQuote, noEscape⟩
    · rw [isEscape, List.cons_append, List.cons_append, List.nil_append, stringBody,
        if_neg noLineEnd, later]
      rfl
    · rw [isEscape, List.singleton_append, stringBody, later]
      · rfl
      all_goals grind

theorem unescape_escaped (quotable : ∀ c ∈ text, IsQuotable c) :
    unescape (text.flatMap Quoted.escape) = some text := by
  induction text with
  | nil => rfl
  | cons c text inductionHypothesis =>
    obtain ⟨isQuotable, quotable⟩ := List.forall_mem_cons.mp quotable
    have later := inductionHypothesis quotable
    rw [List.flatMap_cons]
    rcases escape_cases isQuotable with ⟨letter, isEscape, -, isLetter⟩ | ⟨isEscape, -, noEscape⟩
    · rw [isEscape, List.cons_append, List.cons_append, List.nil_append, isLetter, later]
      rfl
    · rw [isEscape, List.singleton_append, unescape, later]
      · rfl
      all_goals grind

theorem next_quoted (quotable : ∀ c ∈ text, IsQuotable c) (rest : List Char) :
    next '"' (text.flatMap Quoted.escape ++ ['"'] ++ rest) =
      ⟨'"', text.flatMap Quoted.escape ++ ['"'], .token (.string (String.ofList text))⟩ := by
  change stringLexeme '"' _ = _
  rw [List.append_assoc, List.singleton_append, stringLexeme, stringBody_escaped quotable rest]
  simp [unescape_escaped quotable]

end Strings

/-- In front of a delimiter the text is lexed as these tokens, and no sign in front of it takes its
first character. -/
structure Spells (text : List Char) (ts : List Token) : Prop where
  plain : ∀ rest, Delimits rest → Plain (text ++ rest)
  scans : ∀ {rest us}, Delimits rest → Scans rest us → Scans (text ++ rest) (ts ++ us)

namespace Spells

variable {text more : List Char} {ts us : List Token}

theorem nil : Spells [] [] := ⟨fun _ => Delimits.plain, fun _ scans => scans⟩

theorem token {first : Char} {token : Token} (notSign : first ≠ '=' ∧ first ≠ '/')
    (isNext : ∀ rest, Delimits rest → next first (more ++ rest) = ⟨first, more, .token token⟩) :
    Spells (first :: more) [token] where
  plain _ _ := plain_cons notSign _
  scans ends scans := scans.token (isNext _ ends)

theorem append {c : Char} (first : Spells text ts) (second : Spells (c :: more) us)
    (isDelimiter : c ∈ delimiters) : Spells (text ++ c :: more) (ts ++ us) where
  plain rest _ := by
    rw [List.append_assoc]
    exact first.plain _ (delimits_cons isDelimiter _)
  scans ends scans := by
    rw [List.append_assoc, List.append_assoc]
    exact first.scans (delimits_cons isDelimiter _) (second.scans ends scans)

theorem blank (spells : Spells text ts) : Spells (' ' :: text) ts where
  plain _ _ := plain_cons (by decide) _
  scans ends scans := (spells.scans ends scans).blank

theorem symbol {c : Char} {sign : Symbol} (spells : Spells text ts)
    (isSign : Symbol.ofChar? c = some sign) (notSign : c ≠ '=' ∧ c ≠ '/') :
    Spells (c :: text) (.symbol sign :: ts) where
  plain _ _ := plain_cons notSign _
  scans ends scans := (spells.scans ends scans).symbol isSign (spells.plain _ ends)

theorem word {name : String} (isWord : IsWord name.toList) :
    Spells name.toList [wordToken name] := by
  obtain ⟨first, tail, isText, starts⟩ := isWord.exists_cons
  have isNext (rest : List Char) (ends : Delimits rest) :
      next first (tail ++ rest) = ⟨first, tail, .token (wordToken name)⟩ := by
    have isTail : identTail (tail ++ rest) = tail := by
      rw [isText] at isWord
      rw [isWord.identTail_append, ends.identTail_eq_nil, List.append_nil]
    rw [next_of_isWordStart starts, wordLexeme_eq isTail ends, ← isText, String.ofList_toList]
  rw [isText]
  refine token ?_ isNext
  constructor <;> rintro rfl <;> cases starts

theorem digits {n : Nat} {value : Int64} (fits : int64? n = some value) :
    Spells (Nat.toDigits 10 n) [.int value] := by
  have isValue : digitsValue (Nat.toDigits 10 n) = n :=
    Nat.ofDigitChars_toDigits (by decide) (by decide)
  obtain ⟨first, more, isText, digit, areDigits⟩ := toDigits_eq_cons n
  rw [← isValue, isText] at fits
  rw [isText]
  refine token ?_ fun rest ends => ?_
  · constructor <;> rintro rfl <;> cases digit
  · rw [next_of_isDigit digit, numberLexeme_eq areDigits ends fits]

theorem quoted {text : String} (quotable : ∀ c ∈ text.toList, IsQuotable c) :
    Spells (StreamSynth.quoted text).toList [.string text] := by
  rw [StreamSynth.quoted, String.toList_ofList]
  have spells := token (by decide) fun rest (_ : Delimits rest) => next_quoted quotable rest
  rwa [String.ofList_toList] at spells

end Spells

end StreamSynth.Lexer
