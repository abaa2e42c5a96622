import StreamSynth.Token.Lexer

/-!
# Lexing loses no text

Every lexeme is a non-empty prefix of the text that is left, so the tokens and the invalid pieces
of a source lie apart and in order, on the boundaries of its characters. What stands between them
is blanks and comments.
-/

namespace StreamSynth

/-- Taken at the bytes of the span, the source is `before`, then `text`, then `after`. -/
structure Span.Cuts (source : String) (span : Span) (before text after : List Char) : Prop where
  source_eq : source.toList = before ++ (text ++ after)
  start_eq : span.start = byteLength before
  stop_eq : span.stop = byteLength before + byteLength text

/-- Text of blanks and comments, when `next` stands behind it. A comment goes on to the end of its
line. -/
inductive Skippable : List Char → List Char → Prop
  | nil {next} : Skippable [] next
  | blanks {run rest next} : run ≠ [] → (∀ c ∈ run, c ∈ [' ', '\t', '\r', '\n']) →
      Skippable rest next → Skippable (run ++ rest) next
  | comment {body rest next} : (∀ c ∈ body, c ≠ '\n') →
      (∀ c, (rest ++ next).head? = some c → c = '\n') → Skippable rest next →
      Skippable ('/' :: '/' :: (body ++ rest)) next

structure Lexeme.Heads (first : Char) (cs : List Char) (l : Lexeme) : Prop where
  first_eq : l.first = first
  more_isPrefix : l.more <+: cs
  kept : l.kind ≠ .skipped

namespace Lexer

section Prefixes

theorem drop_length_takeWhile (p : Char → Bool) (cs : List Char) :
    cs.drop (cs.takeWhile p).length = cs.dropWhile p := by
  induction cs with
  | nil => rfl
  | cons c cs inductionHypothesis => cases accepted : p c <;> simp [accepted, inductionHypothesis]

theorem isPrefix_append_singleton {p cs : List Char} {c : Char} (isPrefix : p <+: cs)
    (isNext : (cs.drop p.length).head? = some c) : p ++ [c] <+: cs := by
  obtain ⟨rest, rfl⟩ := isPrefix
  rw [List.drop_left] at isNext
  obtain ⟨tail, rfl⟩ := List.head?_eq_some_iff.mp isNext
  exact ⟨tail, by simp⟩

theorem identTail_isPrefix (cs : List Char) : identTail cs <+: cs := by
  fun_induction identTail cs with
  | case1 => exact List.prefix_rfl
  | case2 c rest _ inductionHypothesis => exact (List.prefix_cons_inj c).mpr inductionHypothesis
  | case3 => exact List.nil_prefix

/-- The body of a string literal stands in front of its closing quote, if there is one. -/
theorem stringBody_isPrefix (cs : List Char) :
    (stringBody cs).1 <+: cs ∧
      ((stringBody cs).2 = true → (stringBody cs).1 ++ ['"'] <+: cs) := by
  fun_induction stringBody cs <;> simp_all

theorem exponentPart_isPrefix (cs : List Char) : (exponentPart cs).1 <+: cs := by
  have digits : ∀ (mark : Char) (sign rest : List Char),
      mark :: sign ++ rest.takeWhile Char.isDigit <+: mark :: (sign ++ rest) := by
    intro mark sign rest
    apply (List.prefix_append_right_inj (mark :: sign)).mpr
    exact List.takeWhile_prefix _
  unfold exponentPart
  split
  · next mark rest =>
    split
    · cases rest with
      | nil => simp
      | cons c tail =>
        dsimp only
        split
        · split
          · exact List.nil_prefix
          · exact digits mark [c] tail
        · split
          · exact List.nil_prefix
          · exact digits mark [] (c :: tail)
    · exact List.nil_prefix
  · exact List.nil_prefix

theorem fractionLexeme_heads (first : Char) (whole fraction rest : List Char) :
    (fractionLexeme first whole fraction rest).Heads first (whole ++ '.' :: fraction ++ rest) := by
  have isPrefix : (exponentPart rest).1 <+: rest := exponentPart_isPrefix rest
  cases isPower : exponentPart rest with
  | mk power exponent =>
    rw [isPower] at isPrefix
    simp only [fractionLexeme, isPower]
    split
    · next isSingle =>
      refine ⟨rfl, ?_, by simp⟩
      rw [List.append_assoc _ power]
      exact (List.prefix_append_right_inj _).mpr (isPrefix_append_singleton isPrefix isSingle)
    · exact ⟨rfl, (List.prefix_append_right_inj _).mpr isPrefix, by simp⟩

theorem numberLexeme_heads (first : Char) (cs : List Char) :
    (numberLexeme first cs).Heads first cs := by
  have whole : cs.takeWhile Char.isDigit <+: cs := List.takeWhile_prefix _
  simp only [numberLexeme]
  split
  · next tail isRest =>
    split
    · split <;> exact ⟨rfl, whole, by simp⟩
    · have source_eq : cs.takeWhile Char.isDigit ++ '.' :: tail.takeWhile Char.isDigit ++
          tail.dropWhile Char.isDigit = cs := by
        rw [List.append_assoc, List.cons_append, List.takeWhile_append_dropWhile, ← isRest,
          List.takeWhile_append_dropWhile]
      have behind : (cs.dropWhile Char.isDigit).drop ((tail.takeWhile Char.isDigit).length + 1) =
          tail.dropWhile Char.isDigit := by
        rw [isRest, List.drop_succ_cons, drop_length_takeWhile]
      have heads := fractionLexeme_heads first (cs.takeWhile Char.isDigit)
        (tail.takeWhile Char.isDigit) (tail.dropWhile Char.isDigit)
      rwa [source_eq, ← behind] at heads
  · simp only [List.isEmpty_nil, if_true]
    split <;> exact ⟨rfl, whole, by simp⟩

theorem stringLexeme_heads (first : Char) (cs : List Char) :
    (stringLexeme first cs).Heads first cs := by
  have isPrefix := stringBody_isPrefix cs
  cases isBody : stringBody cs with
  | mk body closed =>
    rw [isBody] at isPrefix
    simp only [stringLexeme, isBody]
    split
    · next isClosed => split <;> exact ⟨rfl, isPrefix.2 isClosed, by simp⟩
    · exact ⟨rfl, isPrefix.1, by simp⟩

theorem wordLexeme_heads (first : Char) (cs : List Char) :
    (wordLexeme first cs).Heads first cs := by
  have isPrefix : identTail cs <+: cs := identTail_isPrefix cs
  simp only [wordLexeme]
  split
  · exact ⟨rfl, isPrefix, by simp⟩
  · split <;> exact ⟨rfl, isPrefix, by simp⟩

theorem symbolLexeme_heads (first : Char) (cs : List Char) :
    (symbolLexeme first cs).Heads first cs := by
  unfold symbolLexeme
  split
  · next second sign isPair =>
    obtain ⟨found, isHead, isFound⟩ := Option.bind_eq_some_iff.mp isPair
    obtain ⟨_, _, ⟨⟩⟩ := Option.map_eq_some_iff.mp isFound
    obtain ⟨tail, rfl⟩ := List.head?_eq_some_iff.mp isHead
    exact ⟨rfl, ⟨tail, rfl⟩, by simp⟩
  · split <;> exact ⟨rfl, List.nil_prefix, by simp⟩

end Prefixes

/-- What the lexeme at the start of `first :: cs` can be: a run of blanks, a comment, or a piece
that is kept. -/
theorem next_cases (first : Char) (cs : List Char) :
    (isBlank first = true ∧ next first cs = ⟨first, cs.takeWhile isBlank, .skipped⟩) ∨
      (∃ tail, first = '/' ∧ cs = '/' :: tail ∧
        next first cs = ⟨'/', '/' :: tail.takeWhile (· ≠ '\n'), .skipped⟩) ∨
      (next first cs).Heads first cs := by
  unfold next
  split
  · next blank => exact .inl ⟨blank, rfl⟩
  split
  · next slashes =>
    simp only [Bool.and_eq_true, decide_eq_true_eq] at slashes
    obtain ⟨rfl, isHead⟩ := slashes
    obtain ⟨tail, rfl⟩ := List.head?_eq_some_iff.mp isHead
    exact .inr (.inl ⟨tail, rfl, rfl, rfl⟩)
  split
  · exact .inr (.inr (numberLexeme_heads first cs))
  split
  · exact .inr (.inr (stringLexeme_heads first cs))
  split
  · exact .inr (.inr (wordLexeme_heads first cs))
  · exact .inr (.inr (symbolLexeme_heads first cs))

def behind (first : Char) (cs : List Char) : List Char := cs.drop (next first cs).more.length

theorem lexemes_cons (first : Char) (cs : List Char) :
    lexemes (first :: cs) = next first cs :: lexemes (behind first cs) := by
  rw [lexemes, behind]

/-- What holds of the empty text, and of a text when it holds of what stands behind its first
lexeme, holds of every text. -/
@[elab_as_elim]
theorem byLexemes {motive : List Char → Prop} (nil : motive [])
    (cons : ∀ first cs, motive (behind first cs) → motive (first :: cs)) (cs : List Char) :
    motive cs := by
  match cs with
  | [] => exact nil
  | first :: cs => exact cons first cs (byLexemes nil cons (behind first cs))
termination_by cs.length
decreasing_by
  simp only [behind, List.length_drop, List.length_cons]
  omega

theorem text_next_append (first : Char) (cs : List Char) :
    (next first cs).text ++ behind first cs = first :: cs := by
  rw [behind]
  rcases next_cases first cs with ⟨_, isRun⟩ | ⟨tail, rfl, rfl, isComment⟩ | heads
  · rw [isRun, Lexeme.text, drop_length_takeWhile, List.cons_append,
      List.takeWhile_append_dropWhile]
  · rw [isComment, Lexeme.text, List.length_cons, List.drop_succ_cons, drop_length_takeWhile]
    simp
  · rw [Lexeme.text, heads.first_eq, List.cons_append,
      List.prefix_iff_eq_append.mp heads.more_isPrefix]

theorem skippable_next {first : Char} {cs text after : List Char}
    (isSkipped : (next first cs).kind = .skipped) (split : behind first cs = text ++ after)
    (skippable : Skippable text after) : Skippable ((next first cs).text ++ text) after := by
  rw [behind] at split
  rcases next_cases first cs with ⟨blank, isRun⟩ | ⟨tail, rfl, rfl, isComment⟩ | heads
  · have blanks : ∀ c ∈ first :: cs.takeWhile isBlank, isBlank c = true := by
      simpa [blank] using List.all_eq_true.mp List.all_takeWhile
    rw [isRun]
    apply Skippable.blanks (List.cons_ne_nil _ _) _ skippable
    intro c membership
    simpa [isBlank, or_assoc] using blanks c membership
  · rw [isComment, List.length_cons, List.drop_succ_cons, drop_length_takeWhile] at split
    rw [isComment]
    apply Skippable.comment _ _ skippable
    · intro c membership
      simpa using List.all_eq_true.mp List.all_takeWhile c membership
    · intro c isHead
      rw [← split] at isHead
      have ends := List.head?_dropWhile_not (fun c : Char => decide (c ≠ '\n')) tail
      rw [isHead] at ends
      simpa using ends
  · exact absurd isSkipped heads.kept

end Lexer

section Cuts

variable {source : String} {span : Span} {before text after : List Char}

theorem byteLength_lt_append (before : List Char) (nonempty : text ≠ []) :
    byteLength before < byteLength (before ++ text) := by
  obtain ⟨c, tail, rfl⟩ := List.exists_cons_of_ne_nil nonempty
  have := c.utf8Size_pos
  simp only [byteLength_append, byteLength]
  omega

/-- Where a text is cut follows from the number of bytes in front of the cut. -/
theorem append_inj_byteLength {before before' after after' : List Char}
    (split : before ++ after = before' ++ after')
    (bytes : byteLength before = byteLength before') : before = before' ∧ after = after' := by
  induction before generalizing before' with
  | nil =>
    cases before' with
    | nil => exact ⟨rfl, split⟩
    | cons c rest =>
      have := c.utf8Size_pos
      simp only [byteLength] at bytes
      omega
  | cons c rest inductionHypothesis =>
    cases before' with
    | nil =>
      have := c.utf8Size_pos
      simp only [byteLength] at bytes
      omega
    | cons c' rest' =>
      injection split with same splitRest
      subst same
      simp only [byteLength, Nat.add_left_cancel_iff] at bytes
      obtain ⟨rfl, rfl⟩ := inductionHypothesis splitRest bytes
      exact ⟨rfl, rfl⟩

theorem Span.Cuts.unique {before' text' after' : List Char}
    (one : span.Cuts source before text after) (other : span.Cuts source before' text' after') :
    before = before' ∧ text = text' ∧ after = after' := by
  obtain ⟨rfl, rest⟩ := append_inj_byteLength (one.source_eq.symm.trans other.source_eq)
    (one.start_eq.symm.trans other.start_eq)
  have sameStop := one.stop_eq.symm.trans other.stop_eq
  obtain ⟨rfl, rfl⟩ := append_inj_byteLength rest (Nat.add_left_cancel sameStop)
  exact ⟨rfl, rfl, rfl⟩

theorem Span.Cuts.stop_le (cuts : span.Cuts source before text after) :
    span.stop ≤ source.utf8ByteSize := by
  rw [cuts.stop_eq, ← byteLength_toList, cuts.source_eq, byteLength_append, byteLength_append]
  omega

end Cuts

def Span.gaps (stop : Nat) : Nat → List Span → List Span
  | start, [] => [⟨start, stop⟩]
  | start, span :: rest => ⟨start, span.start⟩ :: gaps stop span.stop rest

namespace Lexed

def pieces (l : Lexed) : List Span :=
  List.merge (l.tokens.map Prod.snd) (l.errors.map LexError.span) fun a b => a.start ≤ b.start

/-- From the byte `offset` on, the pieces lie apart and in order on boundaries of characters of the
source, only skippable text is left out, and every error holds the text of its span. -/
structure Covers (source : String) (offset : Nat) (l : Lexed) : Prop where
  cut : ∀ piece ∈ l.pieces, offset ≤ piece.start ∧ piece.start < piece.stop ∧
    ∃ before text after, piece.Cuts source before text after
  apart : l.pieces.Pairwise fun a b => a.stop ≤ b.start
  skippable : ∀ gap ∈ Span.gaps source.utf8ByteSize offset l.pieces,
    ∃ before text after, gap.Cuts source before text after ∧ Skippable text after
  worded : ∀ e ∈ l.errors, ∃ before after, e.span.Cuts source before e.text after

namespace Covers

variable {source : String} {before rest : List Char} {later : Lexed}

theorem nothing : Covers source (byteLength source.toList) ⟨[], []⟩ where
  cut := by simp [pieces]
  apart := by simp [pieces]
  skippable := by
    have cuts : Span.Cuts source ⟨byteLength source.toList, source.utf8ByteSize⟩ source.toList
        [] [] := ⟨by simp, rfl, by simp [byteLength, byteLength_toList]⟩
    simpa [pieces, Span.gaps] using ⟨_, _, _, cuts, .nil⟩
  worded := by simp

theorem skip {skipped : List Char} (split : source.toList = before ++ (skipped ++ rest))
    (longer : ∀ text after, rest = text ++ after → Skippable text after →
      Skippable (skipped ++ text) after)
    (covers : later.Covers source (byteLength (before ++ skipped))) :
    later.Covers source (byteLength before) where
  cut piece membership := by
    obtain ⟨low, cut⟩ := covers.cut piece membership
    rw [byteLength_append] at low
    exact ⟨Nat.le_of_add_right_le low, cut⟩
  apart := covers.apart
  skippable := by
    -- Only the first gap starts somewhere else.
    have firstGap : ∀ stop, (∃ b text after,
        Span.Cuts source ⟨byteLength (before ++ skipped), stop⟩ b text after ∧
          Skippable text after) →
        ∃ b text after, Span.Cuts source ⟨byteLength before, stop⟩ b text after ∧
          Skippable text after := by
      rintro stop ⟨b, text, after, cuts, skippable⟩
      rw [← List.append_assoc] at split
      obtain ⟨rfl, isRest⟩ := append_inj_byteLength (cuts.source_eq.symm.trans split)
        cuts.start_eq.symm
      have skippable := longer text after isRest.symm skippable
      refine ⟨before, skipped ++ text, after, ⟨?_, rfl, ?_⟩, skippable⟩
      · simp [cuts.source_eq]
      · simpa [Nat.add_assoc] using cuts.stop_eq
    have gaps := covers.skippable
    cases isPieces : later.pieces with
    | nil =>
      simp only [isPieces, Span.gaps, List.forall_mem_cons] at gaps ⊢
      exact ⟨firstGap _ gaps.1, gaps.2⟩
    | cons piece pieces =>
      simp only [isPieces, Span.gaps, List.forall_mem_cons] at gaps ⊢
      exact ⟨firstGap _ gaps.1, gaps.2⟩
  worded := covers.worded

theorem keep {l : Lexed} {text : List Char} (nonempty : text ≠ [])
    (split : source.toList = before ++ (text ++ rest))
    (covers : later.Covers source (byteLength (before ++ text)))
    (isPieces : l.pieces = ⟨byteLength before, byteLength (before ++ text)⟩ :: later.pieces)
    (worded : ∀ e ∈ l.errors, ∃ before after, e.span.Cuts source before e.text after) :
    l.Covers source (byteLength before) where
  cut := by
    have wide := byteLength_lt_append before nonempty
    simp only [isPieces, List.forall_mem_cons]
    refine ⟨⟨Nat.le_refl _, wide, before, text, rest, split, rfl, byteLength_append _ _⟩, ?_⟩
    intro piece membership
    obtain ⟨low, cut⟩ := covers.cut piece membership
    exact ⟨Nat.le_of_lt (Nat.lt_of_lt_of_le wide low), cut⟩
  apart := by
    rw [isPieces, List.pairwise_cons]
    exact ⟨fun piece membership => (covers.cut piece membership).1, covers.apart⟩
  skippable := by
    simp only [isPieces, Span.gaps, List.forall_mem_cons]
    exact ⟨⟨before, [], text ++ rest, ⟨split, rfl, rfl⟩, .nil⟩, covers.skippable⟩
  worded := worded

end Covers

section Merge

variable {later : Lexed} {span : Span}

theorem mem_pieces_iff {piece : Span} : piece ∈ later.pieces ↔
    piece ∈ later.tokens.map Prod.snd ∨ piece ∈ later.errors.map LexError.span := List.mem_merge

variable (first : ∀ piece ∈ later.pieces, span.start < piece.start)

include first

theorem pieces_token (token : Token) :
    pieces { later with tokens := (token, span) :: later.tokens } = span :: later.pieces := by
  simp only [pieces, List.map_cons]
  cases isErrors : later.errors.map LexError.span with
  | nil => simp
  | cons error errors =>
    apply List.cons_merge_cons_pos
    have isPiece : error ∈ later.pieces := mem_pieces_iff.mpr (.inr (by simp [isErrors]))
    exact decide_eq_true (Nat.le_of_lt (first error isPiece))

theorem pieces_error (text : List Char) :
    pieces { later with errors := ⟨span, text⟩ :: later.errors } = span :: later.pieces := by
  simp only [pieces, List.map_cons]
  cases isTokens : later.tokens.map Prod.snd with
  | nil => simp
  | cons token tokens =>
    apply List.cons_merge_cons_neg
    have isPiece : token ∈ later.pieces := mem_pieces_iff.mpr (.inl (by simp [isTokens]))
    exact fun earlier => Nat.not_le_of_lt (first token isPiece) (of_decide_eq_true earlier)

end Merge

open Lexer in
/-- Sorted into tokens and errors, the lexemes of the text behind `before` cover it. -/
theorem covers_collect {source : String} {before cs : List Char}
    (split : source.toList = before ++ cs) :
    (collect (byteLength before) (lexemes cs)).Covers source (byteLength before) := by
  induction cs using byLexemes generalizing before with
  | nil =>
    rw [List.append_nil] at split
    rw [← split, lexemes]
    exact .nothing
  | cons first cs inductionHypothesis =>
    have splitNext : source.toList = before ++ ((next first cs).text ++ behind first cs) := by
      rw [split, text_next_append]
    have covers := inductionHypothesis (splitNext.trans (List.append_assoc _ _ _).symm)
    have nonempty : (next first cs).text ≠ [] := List.cons_ne_nil _ _
    have earlier := fun piece membership =>
      Nat.lt_of_lt_of_le (byteLength_lt_append before nonempty) (covers.cut piece membership).1
    simp only [lexemes_cons, collect, ← byteLength_append]
    split
    · next isSkipped => exact covers.skip splitNext fun _ _ => skippable_next isSkipped
    · next token isToken =>
      exact covers.keep nonempty splitNext (pieces_token earlier token) covers.worded
    · next isInvalid =>
      apply covers.keep nonempty splitNext (pieces_error earlier _)
      simp only [List.forall_mem_cons]
      exact ⟨⟨before, _, splitNext, rfl, byteLength_append _ _⟩, covers.worded⟩

end Lexed

open Lexed in
/-- The tokens and the invalid pieces of a source, merged by where they start, are non-empty, lie
apart and in order within the source, and begin and end on boundaries of characters. All gaps are
skippable text, and the message of an error quotes the text of its span. -/
theorem lex_covers_source (source : String) :
    (∀ piece ∈ (lex source).pieces, piece.start < piece.stop ∧ piece.stop ≤ source.utf8ByteSize ∧
        ∃ before text after, piece.Cuts source before text after) ∧
      ((lex source).pieces.Pairwise fun a b => a.stop ≤ b.start) ∧
      (∀ gap ∈ Span.gaps source.utf8ByteSize 0 (lex source).pieces,
        ∃ before text after, gap.Cuts source before text after ∧ Skippable text after) ∧
      ∀ e ∈ (lex source).errors, ∀ before text after, e.span.Cuts source before text after →
        e.message = "unexpected character: " ++ quoted (String.ofList text) := by
  have covers : (lex source).Covers source 0 := covers_collect (List.nil_append _).symm
  refine ⟨?_, covers.apart, covers.skippable, ?_⟩
  · intro piece membership
    obtain ⟨_, wide, before, text, after, cuts⟩ := covers.cut piece membership
    exact ⟨wide, cuts.stop_le, before, text, after, cuts⟩
  · intro e membership before text after cuts
    obtain ⟨_, _, held⟩ := covers.worded e membership
    obtain ⟨_, rfl, _⟩ := cuts.unique held
    rfl

end StreamSynth
