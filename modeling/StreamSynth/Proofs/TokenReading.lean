import StreamSynth.Proofs.DisplayReading

/-!
# Displayed tokens are lexed back

The texts of tokens with single blanks between them are source text of the same tokens. A blank
ends every lexeme and starts none but its own, so each text is read alone. Left out are tokens that
their text does not tell: a negative number is displayed with a minus, and a number with a fraction
may be displayed without one.
-/

namespace StreamSynth

open Lexer

def Token.IsSpelled : Token → Prop
  | keyword _ | symbol _ => True
  | int value => 0 ≤ value.toInt
  | single _ | double _ => False
  | string text => ∀ c ∈ text.toList, IsQuotable c
  | ident name => IsName name

theorem Lexer.Spells.natural {value : Int64} (nonnegative : 0 ≤ value.toInt) :
    Spells (toString value.toInt).toList [.int value] := by
  obtain ⟨n, isNat⟩ := Int.eq_ofNat_of_zero_le nonnegative
  have fits : int64? n = some value := by rw [← isNat, int64?_toInt]
  rw [isNat]
  change Spells n.repr.toList _
  rw [Nat.toList_repr]
  exact digits fits

theorem Token.IsSpelled.scans {token : Token} (isSpelled : token.IsSpelled) {rest : List Char}
    {ts : List Token} (ends : Delimits rest) (scans : Scans rest ts) :
    Scans (token.display.toList ++ rest) (token :: ts) := by
  cases token with
  | keyword word => exact word.spells.scans ends scans
  | symbol sign => exact scans.spelling sign ends.plain
  | int value => exact (Spells.natural isSpelled).scans ends scans
  | single value => exact isSpelled.elim
  | double value => exact isSpelled.elim
  | string text => exact (Spells.quoted isSpelled).scans ends scans
  | ident name => exact (IsName.spells isSpelled).scans ends scans

theorem scans_joined {tokens : List Token} (areSpelled : ∀ token ∈ tokens, token.IsSpelled) :
    Scans (joinWith " " (tokens.map Token.display)).toList tokens := by
  induction tokens with
  | nil => exact scans_nil
  | cons token tokens inductionHypothesis =>
    obtain ⟨isSpelled, areSpelled⟩ := List.forall_mem_cons.mp areSpelled
    have later := inductionHypothesis areSpelled
    cases tokens with
    | nil =>
      have noDelimiter : Delimits [] := by rintro _ ⟨⟩
      simpa [joinWith] using isSpelled.scans noDelimiter later
    | cons next tokens =>
      have separated := isSpelled.scans (delimits_cons (by decide) _) later.blank
      simpa [joinWith] using separated

/-- The texts of tokens, joined by single blanks, are lexed as these tokens without an error. -/
theorem lex_joined_display {tokens : List Token}
    (areSpelled : ∀ token ∈ tokens, token.IsSpelled) :
    (lex (joinWith " " (tokens.map Token.display))).tokens.map Prod.fst = tokens ∧
      (lex (joinWith " " (tokens.map Token.display))).errors = [] := by
  obtain ⟨noErrors, areTokens⟩ := scans_joined areSpelled 0
  exact ⟨areTokens, noErrors⟩

/-- Signs that would form a comment or a longer sign, a word next to a name that starts like it, the
greatest number, and a string of a quote, a backslash, a line end and two slashes. -/
def closeTokens : List Token :=
  [.symbol .slash, .symbol .slash, .symbol .less, .symbol .equal, .symbol .assign,
   .keyword .forLoop, .ident "for.x", .int Int64.maxValue, .string "\"\\\n//"]

theorem lex_joined_display_closeTokens :
    joinWith " " (closeTokens.map Token.display) =
        "/ / < == = for for.x 9223372036854775807 \"\\\"\\\\\\n//\"" ∧
      (lex (joinWith " " (closeTokens.map Token.display))).tokens.map Prod.fst = closeTokens ∧
      (lex (joinWith " " (closeTokens.map Token.display))).errors = [] := by
  have isName : IsName "for.x" := by
    have isWord : IsWord "for.x".toList :=
      ⟨'f', ['o', 'r'], [['x']], rfl, rfl, List.all_eq_true.mp rfl, by simp [isWordPart]⟩
    exact ⟨isWord, by decide⟩
  have quotable : ∀ c ∈ "\"\\\n//".toList, IsQuotable c := by
    have all : ("\"\\\n//".toList.all fun c => decide (IsQuotable c)) = true := by decide
    simpa only [List.all_eq_true, decide_eq_true_eq] using all
  have areSpelled : ∀ token ∈ closeTokens, token.IsSpelled := by
    have nonnegative : 0 ≤ Int64.maxValue.toInt := by decide
    simp only [closeTokens, List.forall_mem_cons]
    exact ⟨trivial, trivial, trivial, trivial, trivial, trivial, isName, nonnegative, quotable,
      List.forall_mem_nil _⟩
  exact ⟨by decide, lex_joined_display areSpelled⟩

end StreamSynth
