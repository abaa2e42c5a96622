import StreamSynth.Emit.Identifier

/-!
# Names that are identifiers already

Turning a name into an identifier gives a name that can stand in the generated code, and changes
exactly the names that cannot. The type of addresses is the only one with another character in its
text.
-/

namespace StreamSynth

structure IsIdentifier (chars : List Char) : Prop where
  legal : ∀ c ∈ chars, isIdentifierChar c = true
  head_not_digit : chars.head?.any Char.isDigit = false

theorem isIdentifierChar_underscore : isIdentifierChar '_' = true := by decide

theorem isIdentifierChar_of_isDigit {c : Char} (digit : c.isDigit = true) :
    isIdentifierChar c = true := by
  simp [isIdentifierChar, Char.isAlphanum, digit]

namespace IsIdentifier

/-- What follows an identifier only has to be legal, unless the identifier is empty. -/
theorem append {chars more : List Char} (first : IsIdentifier chars)
    (legal : ∀ c ∈ more, isIdentifierChar c = true)
    (start : more.head?.any Char.isDigit = false) : IsIdentifier (chars ++ more) where
  legal c membership := (List.mem_append.mp membership).elim (first.legal c) (legal c)
  head_not_digit := by
    cases chars with
    | nil => exact start
    | cons c rest => exact first.head_not_digit

end IsIdentifier

theorem isIdentifier_identifierChars (name : List Char) : IsIdentifier (identifierChars name) := by
  have legal : ∀ c ∈ name.map (fun c => if isIdentifierChar c then c else '_'),
      isIdentifierChar c = true := by
    intro c membership
    obtain ⟨original, _, rfl⟩ := List.mem_map.mp membership
    split
    · assumption
    · exact isIdentifierChar_underscore
  simp only [identifierChars]
  split
  · refine ⟨?_, rfl⟩
    intro c membership
    rcases List.mem_cons.mp membership with rfl | inside
    · exact isIdentifierChar_underscore
    · exact legal c inside
  · next noDigit => exact ⟨legal, by simpa using noDigit⟩

theorem identifierChars_eq_self {name : List Char} (identifier : IsIdentifier name) :
    identifierChars name = name := by
  have unchanged : name.map (fun c => if isIdentifierChar c then c else '_') = name := by
    calc name.map (fun c => if isIdentifierChar c then c else '_')
        = name.map id :=
          List.map_congr_left fun c membership => if_pos (identifier.legal c membership)
      _ = name := List.map_id name
  simp only [identifierChars, unchanged, identifier.head_not_digit]
  rfl

theorem isIdentifier_identifier (name : String) : IsIdentifier (identifier name).toList := by
  rw [identifier, String.toList_ofList]
  exact isIdentifier_identifierChars name.toList

/-- Exactly the names that are identifiers already stay as they are. -/
theorem identifier_eq_self_iff (name : String) :
    identifier name = name ↔ IsIdentifier name.toList := by
  constructor
  · intro unchanged
    rw [← unchanged]
    exact isIdentifier_identifier name
  · intro isIdentifier
    rw [identifier, identifierChars_eq_self isIdentifier, String.ofList_toList]

/-- The text of a type is a word, but for the type of addresses. -/
theorem ScalarType.generated_cases (t : ScalarType) :
    (∀ c ∈ t.generated.toList, isIdentifierChar c = true) ∨ t.generated = "void" ++ " *" := by
  have isWord {name : String} (all : name.toList.all isIdentifierChar = true) :
      (∀ c ∈ name.toList, isIdentifierChar c = true) ∨ name = "void" ++ " *" :=
    .inl (List.all_eq_true.mp all)
  unfold generated
  repeat' split
  all_goals first | exact isWord rfl | exact .inr rfl

end StreamSynth
