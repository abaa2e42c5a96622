import StreamSynth.Text.Quoted

/-!
# Quoted text is read back

Every character between the quotes stands for itself or is escaped, and where an escape ends is told
by its own characters. So a quoted text ends at the first quote that is not escaped, and what it
stands for can be read off it, whatever follows.
-/

namespace StreamSynth.Quoted

def hexDigitValue (c : Char) : Nat :=
  if c.isDigit then c.toNat - '0'.toNat else c.toNat - 'a'.toNat + 10

def hexValue (digits : List Char) : Nat :=
  digits.foldl (fun value digit => 16 * value + hexDigitValue digit) 0

def letterEscapes : List (Char × Char) :=
  [('"', '"'), ('\\', '\\'), ('n', '\n'), ('r', '\r'), ('t', '\t'), ('0', '\x00')]

def unescape : List Char → Option (Char × List Char)
  | '\\' :: 'u' :: '\x7b' :: rest =>
    some (Char.ofNat (hexValue (rest.takeWhile (· ≠ '\x7d'))), (rest.dropWhile (· ≠ '\x7d')).tail)
  | '\\' :: letter :: rest => (letterEscapes.lookup letter).map fun c => (c, rest)
  | c :: rest => some (c, rest)
  | [] => none

/-- Reads characters up to the closing quote, at most as many as told. -/
def body : Nat → List Char → Option (List Char × List Char)
  | 0, _ => none
  | limit + 1, text =>
    match text with
    | '"' :: rest => some ([], rest)
    | text => do
      let (c, rest) ← unescape text
      let (more, rest) ← body limit rest
      return (c :: more, rest)

section Hexadecimal

theorem hexDigitValue_digitChar : ∀ digit < 16, hexDigitValue (Nat.digitChar digit) = digit := by
  decide

theorem digitChar_ne_brace : ∀ digit < 16, Nat.digitChar digit ≠ '\x7d' := by decide

theorem hexValue_append (digits : List Char) (digit : Char) :
    hexValue (digits ++ [digit]) = 16 * hexValue digits + hexDigitValue digit := by
  simp [hexValue, List.foldl_append]

/-- The digits of a number have its value, and none of them ends the escape. -/
theorem hexValue_toDigits (n : Nat) :
    hexValue (Nat.toDigits 16 n) = n ∧ ∀ c ∈ Nat.toDigits 16 n, c ≠ '\x7d' := by
  induction n using Nat.strongRecOn with
  | ind n inductionHypothesis =>
    by_cases isDigit : n < 16
    · rw [Nat.toDigits_of_lt_base isDigit]
      have value : hexValue [Nat.digitChar n] = n := by
        simpa [hexValue] using hexDigitValue_digitChar n isDigit
      exact ⟨value, List.forall_mem_singleton.mpr (digitChar_ne_brace n isDigit)⟩
    · obtain ⟨value, noBrace⟩ := inductionHypothesis (n / 16) (by omega)
      have last : n % 16 < 16 := Nat.mod_lt n (by decide)
      rw [Nat.toDigits_of_base_le (by decide) (by omega), hexValue_append, value,
        hexDigitValue_digitChar _ last, List.forall_mem_append]
      exact ⟨by omega, noBrace, List.forall_mem_singleton.mpr (digitChar_ne_brace _ last)⟩

end Hexadecimal

theorem unescape_codePointEscape (c : Char) (rest : List Char) :
    unescape (codePointEscape c ++ rest) = some (c, rest) := by
  obtain ⟨value, noBrace⟩ := hexValue_toDigits c.toNat
  have areDigits : ∀ digit ∈ Nat.toDigits 16 c.toNat, decide (digit ≠ '\x7d') = true := by
    simpa using noBrace
  simp only [codePointEscape, List.cons_append, List.append_assoc, List.nil_append, unescape,
    List.takeWhile_append_of_pos areDigits, List.dropWhile_append_of_pos areDigits]
  simp [value]

theorem unescape_itself {c : Char} (notEscape : c ≠ '\\') (rest : List Char) :
    unescape (c :: rest) = some (c, rest) := by
  unfold unescape
  split
  · next isEscape => exact absurd (List.cons.inj isEscape).1 notEscape
  · next isEscape => exact absurd (List.cons.inj isEscape).1 notEscape
  · next same =>
    obtain ⟨rfl, rfl⟩ := List.cons.inj same
    rfl
  · next isEmpty => cases isEmpty

theorem unescape_letter {c letter : Char} (isLetter : letterEscapes.lookup letter = some c)
    (notCode : letter ≠ 'u') (rest : List Char) :
    unescape ('\\' :: letter :: rest) = some (c, rest) := by
  unfold unescape
  split
  · next isCode => exact absurd (List.cons.inj (List.cons.inj isCode).2).1 notCode
  · next same =>
    cases same
    rw [isLetter]
    rfl
  · next noLetter same =>
    cases same
    exact absurd rfl (noLetter letter rest rfl)
  · next isEmpty => cases isEmpty

def IsShown (c : Char) : Prop :=
  32 ≤ c.toNat ∧ c.toNat ≠ 127 ∧ (127 < c.toNat → isUnprintable c = false)

/-- A character is written as itself, by a letter behind a backslash or by its code point. -/
inductive Written (c : Char) : Prop
  | itself : c ≠ '"' → c ≠ '\\' → IsShown c → escape c = [c] → Written c
  | letter (letter) : (letter, c) ∈ letterEscapes → escape c = ['\\', letter] → Written c
  | codePoint : ¬ IsShown c → (∀ letter, (letter, c) ∉ letterEscapes) →
      escape c = codePointEscape c → Written c

theorem written (c : Char) : Written c := by
  by_cases isQuote : c = '"'
  · exact .letter '"' (by simp [isQuote, letterEscapes]) (by rw [escape, if_pos isQuote])
  by_cases isBackslash : c = '\\'
  · exact .letter '\\' (by simp [isBackslash, letterEscapes])
      (by rw [escape, if_neg isQuote, if_pos isBackslash])
  by_cases isLineEnd : c = '\n'
  · exact .letter 'n' (by simp [isLineEnd, letterEscapes]) (by rw [isLineEnd]; rfl)
  by_cases isReturn : c = '\r'
  · exact .letter 'r' (by simp [isReturn, letterEscapes]) (by rw [isReturn]; rfl)
  by_cases isTab : c = '\t'
  · exact .letter 't' (by simp [isTab, letterEscapes]) (by rw [isTab]; rfl)
  by_cases isNull : c = '\x00'
  · exact .letter '0' (by simp [isNull, letterEscapes]) (by rw [isNull]; rfl)
  have isZero : c.toNat ≠ 0 := fun isZero => isNull (Char.toNat_inj.mp isZero)
  have noLetter (letter : Char) : (letter, c) ∉ letterEscapes := by
    simp [letterEscapes, isQuote, isBackslash, isLineEnd, isReturn, isTab, isNull]
  have escape_eq : escape c = if c.toNat < 32 ∨ c.toNat = 127 then codePointEscape c
      else if c.toNat < 127 then [c]
      else if isUnprintable c then codePointEscape c else [c] := by
    rw [escape, if_neg isQuote, if_neg isBackslash, if_neg isLineEnd, if_neg isReturn,
      if_neg isTab, if_neg isZero]
  split at escape_eq
  · next isControl =>
    refine .codePoint (fun isShown => ?_) noLetter escape_eq
    obtain ⟨notControl, notDelete, -⟩ := isShown
    omega
  split at escape_eq
  · exact .itself isQuote isBackslash ⟨by omega, by omega, by omega⟩ escape_eq
  split at escape_eq
  · next unprintable =>
    refine .codePoint (fun isShown => ?_) noLetter escape_eq
    rw [isShown.2.2 (by omega)] at unprintable
    cases unprintable
  · next printable =>
    refine .itself isQuote isBackslash ⟨by omega, by omega, fun _ => ?_⟩ escape_eq
    simpa using printable

theorem lookup_of_mem_letterEscapes {c letter : Char} (isLetter : (letter, c) ∈ letterEscapes) :
    letterEscapes.lookup letter = some c ∧ letter ≠ 'u' := by
  simp only [letterEscapes, List.mem_cons, Prod.mk.injEq, List.not_mem_nil, or_false] at isLetter
  rcases isLetter with ⟨rfl, rfl⟩ | ⟨rfl, rfl⟩ | ⟨rfl, rfl⟩ | ⟨rfl, rfl⟩ | ⟨rfl, rfl⟩ | ⟨rfl, rfl⟩
  all_goals decide

theorem unescape_escape (c : Char) (rest : List Char) :
    unescape (escape c ++ rest) = some (c, rest) := by
  cases written c with
  | itself _ notBackslash _ escape_eq =>
    rw [escape_eq]
    exact unescape_itself notBackslash rest
  | letter letter isLetter escape_eq =>
    obtain ⟨isLookedUp, notCode⟩ := lookup_of_mem_letterEscapes isLetter
    rw [escape_eq]
    exact unescape_letter isLookedUp notCode rest
  | codePoint _ _ escape_eq =>
    rw [escape_eq]
    exact unescape_codePointEscape c rest

/-- No character is written so that it could be taken for the closing quote. -/
theorem escape_start (c : Char) : ∃ first more, escape c = first :: more ∧ first ≠ '"' := by
  cases written c with
  | itself notQuote _ _ escape_eq => exact ⟨c, [], escape_eq, notQuote⟩
  | letter _ _ escape_eq => exact ⟨'\\', _, escape_eq, by decide⟩
  | codePoint _ _ escape_eq => exact ⟨'\\', _, escape_eq, by decide⟩

theorem body_chars {text : List Char} {limit : Nat}
    (fits : (text.flatMap escape).length < limit) (rest : List Char) :
    body limit (text.flatMap escape ++ '"' :: rest) = some (text, rest) := by
  induction text generalizing limit with
  | nil =>
    cases limit with
    | zero => cases fits
    | succ limit => rfl
  | cons c text inductionHypothesis =>
    obtain ⟨first, more, isEscape, notQuote⟩ := escape_start c
    cases limit with
    | zero => cases fits
    | succ limit =>
      have shorter : (text.flatMap escape).length < limit := by
        simp only [List.flatMap_cons, isEscape, List.length_append, List.length_cons] at fits
        omega
      have reads := unescape_escape c (text.flatMap escape ++ '"' :: rest)
      rw [List.flatMap_cons, List.append_assoc]
      rw [isEscape, List.cons_append] at reads ⊢
      unfold body
      split
      · next isQuote => exact absurd (List.cons.inj isQuote).1 notQuote
      · simp [reads, inductionHypothesis shorter]

end StreamSynth.Quoted
