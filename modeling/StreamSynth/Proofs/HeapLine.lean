import StreamSynth.Proofs.Digits
import StreamSynth.Proofs.KernelIndependence
import StreamSynth.Proofs.OneLine

/-!
# Lines about heap arrays

A heap array is allocated by one line of the generated code and freed by another. No other line that
a statement is written with can be taken for one of these. Mostly the character behind the first
word tells them apart; where it does not, the text goes on in another way or ends in another way.
-/

namespace StreamSynth

inductive HeapStep.Shown : HeapStep → String → Prop
  | allocate (type : ScalarType) (name size : String) :
      Shown (.allocate name) (newLine type name size)
  | free (name : String) : Shown (.free name) ("delete[] " ++ identifier name ++ ";")

def NoHeapLine (text : String) : Prop := ∀ step : HeapStep, ¬ step.Shown text

def behindWord (text : String) : List Char := text.toList.dropWhile isIdentifierChar

theorem behindWord_eq {text : String} {word rest : List Char} (isText : text.toList = word ++ rest)
    (isWord : ∀ c ∈ word, isIdentifierChar c = true)
    (ends : rest.head?.any isIdentifierChar = false) : behindWord text = rest := by
  rw [behindWord, isText]
  exact (span_kind isWord ends).2

/-- A text whose first word has ended only gets longer at its end. -/
theorem behindWord_append {start : String} {c : Char} {rest : List Char}
    (behind : behindWord start = c :: rest) (more : String) :
    behindWord (start ++ more) = c :: (rest ++ more.toList) := by
  rw [behindWord] at behind
  rw [behindWord, String.toList_append, List.dropWhile_append, behind]
  rfl

section HeapLines

variable (type : ScalarType) (name size : String)

theorem toList_newLine : ∃ rest,
    (newLine type name size).toList = type.generated.toList ++ ' ' :: '*' :: rest := by
  simp only [newLine, String.toList_append, List.append_assoc]
  exact ⟨_, rfl⟩

theorem behindWord_newLine : ∃ rest, behindWord (newLine type name size) = ' ' :: '*' :: rest := by
  obtain ⟨rest, isText⟩ := toList_newLine type name size
  rcases type.generated_cases with isWord | isAddress
  · exact ⟨rest, behindWord_eq isText isWord rfl⟩
  · rw [behindWord, isText, isAddress]
    exact ⟨_, rfl⟩

theorem behindWord_delete :
    behindWord ("delete[] " ++ identifier name ++ ";") =
      '[' :: ']' :: ' ' :: ((identifier name).toList ++ [';']) := by
  have start : behindWord "delete[] " = ['[', ']', ' '] := rfl
  have lineEnd : ";".toList = [';'] := rfl
  rw [behindWord_append (behindWord_append start (identifier name)) ";", lineEnd]
  rfl

end HeapLines

section OtherLines

variable {text : String} {word rest : List Char} {c : Char}

theorem noHeapLine_of_behind (behind : behindWord text = c :: rest) (notBlank : c ≠ ' ')
    (notBracket : c ≠ '[') : NoHeapLine text := by
  rintro _ (⟨type, name, size⟩ | name)
  · obtain ⟨_, isNew⟩ := behindWord_newLine type name size
    rw [isNew, List.cons.injEq] at behind
    exact notBlank behind.1.symm
  · rw [behindWord_delete, List.cons.injEq] at behind
    exact notBracket behind.1.symm

/-- Whether the character behind the first word rules out a line about the heap. -/
def endsOther (text : String) : Bool := (behindWord text).head?.any fun c => c != ' ' && c != '['

theorem noHeapLine_of_endsOther (other : endsOther text = true) : NoHeapLine text := by
  rw [endsOther, Option.any_eq_true] at other
  obtain ⟨c, isHead, ends⟩ := other
  obtain ⟨rest, behind⟩ := List.head?_eq_some_iff.mp isHead
  rw [Bool.and_eq_true, bne_iff_ne, bne_iff_ne] at ends
  exact noHeapLine_of_behind behind ends.1 ends.2

theorem noHeapLine_of_start {start : String} (other : endsOther start = true) (more : String) :
    NoHeapLine (start ++ more) := by
  refine noHeapLine_of_endsOther ?_
  rw [endsOther] at other ⊢
  cases behind : behindWord start with
  | nil =>
    rw [behind] at other
    cases other
  | cons c rest =>
    rw [behind] at other
    rw [behindWord_append behind]
    exact other

/-- Two words, or a word and a parenthesis. -/
theorem noHeapLine_of_blank (behind : behindWord text = ' ' :: c :: rest) (notStar : c ≠ '*') :
    NoHeapLine text := by
  rintro _ (⟨type, name, size⟩ | name)
  · obtain ⟨_, isNew⟩ := behindWord_newLine type name size
    rw [isNew, List.cons.injEq, List.cons.injEq] at behind
    exact notStar behind.2.1.symm
  · rw [behindWord_delete] at behind
    cases behind

theorem ScalarType.generated_ne_void (type : ScalarType) : type.generated ≠ "void" := by
  unfold generated
  repeat' split
  all_goals decide

/-- A line that starts with the type of addresses allocates only if it goes on with a star. -/
theorem noHeapLine_of_void (isText : text.toList = "void *".toList ++ rest)
    (noStar : ∀ more, rest ≠ ' ' :: '*' :: more) : NoHeapLine text := by
  rintro _ (⟨type, name, size⟩ | name)
  · obtain ⟨more, isNew⟩ := toList_newLine type name size
    rw [isNew] at isText
    rcases type.generated_cases with isWord | isAddress
    · have sameWord : type.generated.toList = "void".toList :=
        calc type.generated.toList
            = (type.generated.toList ++ ' ' :: '*' :: more).takeWhile isIdentifierChar :=
              (span_kind isWord rfl).1.symm
          _ = ("void *".toList ++ rest).takeWhile isIdentifierChar := by rw [isText]
          _ = "void".toList := rfl
      exact type.generated_ne_void (String.toList_inj.mp sameWord)
    · rw [isAddress] at isText
      exact noStar more (List.append_cancel_left isText).symm
  · rw [String.toList_append, String.toList_append, List.append_assoc] at isText
    have sameStart : some 'd' = some 'v' := congrArg List.head? isText
    exact absurd sameStart (by decide)

theorem noHeapLine_of_bracket (behind : behindWord text = '[' :: rest)
    (notDelete : ∀ name, rest ≠ ']' :: ' ' :: ((identifier name).toList ++ [';'])) :
    NoHeapLine text := by
  rintro _ (⟨type, name, size⟩ | name)
  · obtain ⟨_, isNew⟩ := behindWord_newLine type name size
    rw [isNew] at behind
    cases behind
  · rw [behindWord_delete, List.cons.injEq] at behind
    exact notDelete name behind.2.symm

theorem noHeapLine_of_assignment (behind : behindWord text = '[' :: rest) (assigns : '=' ∈ rest) :
    NoHeapLine text := by
  refine noHeapLine_of_bracket behind ?_
  rintro name rfl
  have inName : '=' ∈ (identifier name).toList := by simpa using assigns
  exact absurd ((isIdentifier_identifier name).legal _ inName) (by decide)

theorem noHeapLine_of_element (behind : behindWord text = '[' :: (rest ++ [']', ';'])) :
    NoHeapLine text := by
  refine noHeapLine_of_bracket behind fun name isDelete => ?_
  -- What stands before the semicolon would be a character of the name or a blank.
  have same : (rest ++ [']']) ++ [';'] = (']' :: ' ' :: (identifier name).toList) ++ [';'] := by
    rw [List.append_assoc]
    exact isDelete
  have last := congrArg List.getLast? (List.append_cancel_right same)
  rw [List.getLast?_concat, List.getLast?_cons_cons] at last
  rcases List.mem_cons.mp (List.mem_of_getLast? last.symm) with isBlank | inName
  · exact absurd isBlank (by decide)
  · exact absurd ((isIdentifier_identifier name).legal _ inName) (by decide)

end OtherLines

section StatementLines

variable (name : String)

theorem noHeapLine_call {word : String} (isWord : ∀ c ∈ word.toList, isIdentifierChar c = true)
    (more : String) : NoHeapLine (word ++ "(" ++ more) := by
  have behind : behindWord (word ++ "(") = ['('] :=
    behindWord_eq String.toList_append isWord rfl
  refine noHeapLine_of_start ?_ more
  rw [endsOther, behind]
  rfl

/-- A name does not start with a star, nor does what stands behind an empty one. -/
theorem identifier_append_ne_star {c : Char} (notStar : c ≠ '*') (rest : List Char) :
    ∃ d more, (identifier name).toList ++ c :: rest = d :: more ∧ d ≠ '*' := by
  have legal := (isIdentifier_identifier name).legal
  cases isName : (identifier name).toList with
  | nil => exact ⟨c, rest, rfl, notStar⟩
  | cons d more =>
    refine ⟨d, _, rfl, ?_⟩
    rintro rfl
    exact absurd (legal '*' (isName ▸ List.mem_cons_self)) (by decide)

theorem noHeapLine_arrayLine (type : ScalarType) (size : Int64) :
    NoHeapLine (arrayLine type name size) := by
  obtain ⟨rest, isText⟩ : ∃ rest, (arrayLine type name size).toList =
      type.generated.toList ++ ' ' :: ((identifier name).toList ++ '[' :: rest) := by
    have blank : " ".toList = [' '] := rfl
    have bracket : "[".toList = ['['] := rfl
    simp only [arrayLine, String.toList_append, List.append_assoc, blank, bracket,
      List.singleton_append]
    exact ⟨_, rfl⟩
  obtain ⟨c, more, isName, notStar⟩ := identifier_append_ne_star name (c := '[') (by decide) rest
  rw [isName] at isText
  rcases type.generated_cases with isWord | isAddress
  · exact noHeapLine_of_blank (behindWord_eq isText isWord rfl) notStar
  · rw [isAddress] at isText
    refine noHeapLine_of_void isText ?_
    rintro _ ⟨⟩
    exact notStar rfl

theorem ScalarType.generated_start (type : ScalarType) :
    ∃ c rest, type.generated.toList = c :: rest ∧ c ≠ '*' := by
  unfold generated
  repeat' split
  all_goals exact ⟨_, _, rfl, by decide⟩

theorem noHeapLine_letLine (type : ScalarType) (value : String) :
    NoHeapLine (letLine name type value) := by
  rw [letLine]
  split
  · next isHandle =>
    have isAddress : type.generated = "void *" := by
      rw [ScalarType.generated, of_decide_eq_true isHandle]
    have isText : (type.generated ++ identifier name ++ " = " ++ value ++ ";").toList =
        "void *".toList ++ ((identifier name).toList ++ ' ' :: '=' :: ' ' ::
          (value.toList ++ [';'])) := by
      simp only [isAddress, String.toList_append, List.append_assoc]
      rfl
    refine noHeapLine_of_void isText fun more starts => ?_
    -- A name has no blank, and behind an empty name stands no star.
    cases isName : (identifier name).toList with
    | nil => simp [isName] at starts
    | cons c rest =>
      rw [isName, List.cons_append, List.cons.injEq] at starts
      have legal := (isIdentifier_identifier name).legal c (isName ▸ List.mem_cons_self)
      rw [starts.1] at legal
      exact absurd legal (by decide)
  · obtain ⟨c, rest, isType, notStar⟩ := type.generated_start
    have behind : behindWord
        ("const " ++ type.generated ++ " " ++ identifier name ++ " = " ++ value ++ ";") =
          ' ' :: c :: (rest ++ (" ".toList ++ ((identifier name).toList ++ (" = ".toList ++
            (value.toList ++ ";".toList))))) := by
      simp only [behindWord, String.toList_append, List.append_assoc, isType]
      rfl
    exact noHeapLine_of_blank behind notStar

theorem noHeapLine_loopLine (min extent : String) : NoHeapLine (loopLine name min extent) := by
  have start : behindWord "for (int " = " (int ".toList := rfl
  unfold loopLine
  simp only [String.append_assoc]
  exact noHeapLine_of_blank (behindWord_append start _) (by decide)

theorem noHeapLine_condition (printed : String) : NoHeapLine ("if (" ++ printed ++ ") \x7b") := by
  have start : behindWord "if (" = " (".toList := rfl
  rw [String.append_assoc]
  exact noHeapLine_of_blank (behindWord_append start _) (by decide)

theorem noHeapLine_store (index value : String) :
    NoHeapLine (identifier name ++ "[" ++ index ++ "] = " ++ value ++ ";") := by
  have isText : (identifier name ++ "[" ++ index ++ "] = " ++ value ++ ";").toList =
      (identifier name).toList ++
        '[' :: (index.toList ++ ("] = ".toList ++ (value.toList ++ [';']))) := by
    simp only [String.toList_append, List.append_assoc]
    rfl
  refine noHeapLine_of_assignment
    (behindWord_eq isText (isIdentifier_identifier name).legal rfl) ?_
  have inMiddle : '=' ∈ "] = ".toList := by decide
  exact List.mem_append_right _ (List.mem_append_left _ inMiddle)

theorem noHeapLine_declaration {type : StencilType} (notMemory : type.layout ≠ .memory) :
    NoHeapLine (type.generated ++ " " ++ identifier name ++ ";") := by
  simp only [StencilType.generated]
  split
  case h_4 isMemory => exact absurd isMemory notMemory
  all_goals
    simp only [String.append_assoc]
    exact noHeapLine_of_start rfl _

theorem noHeapLine_pragmas (type : StencilType) :
    ∀ text ∈ type.pragmas (identifier name), NoHeapLine text := by
  unfold StencilType.pragmas
  simp only [String.append_assoc]
  split
  · refine List.forall_mem_cons.mpr ⟨?_, List.forall_mem_singleton.mpr ?_⟩
    · exact noHeapLine_of_start rfl _
    · exact noHeapLine_of_start rfl _
  · exact List.forall_mem_singleton.mpr (noHeapLine_of_start rfl _)
  · exact List.forall_mem_nil _
  · exact List.forall_mem_nil _

theorem noHeapLine_numeral {text : String}
    (areNumeral : ∀ c ∈ text.toList, isNumeralChar c = true) : NoHeapLine (text ++ ";") := by
  cases behind : behindWord text with
  | nil =>
    have lineEnd : behindWord (text ++ ";") = [';'] := by
      rw [behindWord] at behind
      rw [behindWord, String.toList_append, List.dropWhile_append, behind]
      rfl
    exact noHeapLine_of_behind lineEnd (by decide) (by decide)
  | cons c rest =>
    have inText : c ∈ text.toList := by
      refine (List.dropWhile_sublist isIdentifierChar).subset ?_
      change c ∈ behindWord text
      rw [behind]
      exact List.mem_cons_self
    have isNumeral := areNumeral c inText
    refine noHeapLine_of_behind (behindWord_append behind ";") ?_ ?_
    · rintro rfl
      exact absurd isNumeral (by decide)
    · rintro rfl
      exact absurd isNumeral (by decide)

end StatementLines

theorem Expr.noHeapLine_print (e : Expr) :
    GivesOnly (fun text => NoHeapLine (text ++ ";")) e.print := by
  have anything (e : Expr) : GivesOnly (fun _ => True) e.print := fun _ _ => trivial
  cases e with
  | int value type => exact .ok (noHeapLine_numeral (numeral_integer value.toInt))
  | float value type =>
    refine .ok (noHeapLine_numeral ?_)
    split
    · exact numeral_literal _ _
    · rw [String.toList_append]
      exact List.forall_mem_append.mpr ⟨numeral_literal _ _, List.all_eq_true.mp rfl⟩
  | string text =>
    refine .ok (noHeapLine_of_start ?_ ";")
    rw [endsOther, behindWord, quoted, String.toList_ofList]
    rfl
  | var name type =>
    have behind : behindWord (identifier name ++ ";") = [';'] :=
      behindWord_eq String.toList_append (isIdentifier_identifier name).legal rfl
    exact .ok (noHeapLine_of_behind behind (by decide) (by decide))
  | cast type arg =>
    refine (anything arg).bind fun printed _ => .ok ?_
    simp only [String.append_assoc]
    exact noHeapLine_of_start rfl _
  | binary op left right =>
    refine (anything left).bind fun left _ => (anything right).bind fun right _ => .ok ?_
    rw [printBinary]
    split
    · simp only [String.append_assoc]
      exact noHeapLine_of_start rfl _
    · simp only [String.append_assoc]
      split
      · exact noHeapLine_of_start rfl _
      · exact noHeapLine_of_start rfl _
  | not arg =>
    refine (anything arg).bind fun printed _ => .ok ?_
    simp only [String.append_assoc]
    exact noHeapLine_of_start rfl _
  | select condition whenTrue whenFalse =>
    refine (anything condition).bind fun _ _ => (anything whenTrue).bind fun _ _ =>
      (anything whenFalse).bind fun _ _ => .ok ?_
    simp only [String.append_assoc]
    exact noHeapLine_of_start rfl _
  | load name type index =>
    refine (anything index).bind fun printed _ => ?_
    have isText : (identifier name ++ "[" ++ printed ++ "]" ++ ";").toList =
        (identifier name).toList ++ '[' :: (printed.toList ++ [']', ';']) := by
      have bracket : "[".toList = ['['] := rfl
      simp only [String.toList_append, List.append_assoc, bracket, List.singleton_append]
      rfl
    have behind := behindWord_eq isText (isIdentifier_identifier name).legal rfl
    exact .ok (noHeapLine_of_element behind)
  | call name type args =>
    have printedArgs : GivesOnly (fun _ => True) (printAll args) := fun _ _ => trivial
    unfold print
    split
    · split
      · refine (anything _).bind fun printed _ => .ok ?_
        simp only [String.append_assoc]
        exact noHeapLine_of_start rfl _
      · exact .refused _
    split
    · exact .refused _
    · refine printedArgs.bind fun printed _ => .ok ?_
      rw [String.append_assoc, String.append_assoc]
      exact noHeapLine_call (isIdentifier_identifier name).legal _

end StreamSynth
