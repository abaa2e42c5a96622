import StreamSynth.Proofs.DisplayReading

/-!
# The form of parsed pipelines

What the parser builds is well formed: constants lie strictly above the least word, so that a sign
before them never overflows, types are those that some word names, and sequences nest to the right
only. Each phrase of the grammar is well formed when its tokens are admissible, and the tokens of
every source text are. A name of the source has the shape of one; it is a keyword only right before
a point that belongs to no name, which is an error of its own.
-/

namespace StreamSynth

/-- Expressions as source text forms them, with the given kind of names. -/
inductive Expr.Formed (Named : String → Prop) : Expr → Prop
  | int {value} : Int64.minValue < value → Formed Named (.int value .default)
  | float {value type} : type.IsNamed → Formed Named (.float value type)
  | string {text} : Formed Named (.string text)
  | var {name type} : Named name → type.IsNamed → Formed Named (.var name type)
  | cast {type arg} : type.IsNamed → Formed Named arg → Formed Named (.cast type arg)
  | binary {op left right} : Formed Named left → Formed Named right →
      Formed Named (.binary op left right)
  | not {arg} : Formed Named arg → Formed Named (.not arg)
  | select {condition whenTrue whenFalse} : Formed Named condition → Formed Named whenTrue →
      Formed Named whenFalse → Formed Named (.select condition whenTrue whenFalse)
  | load {name type index} : Named name → type.IsNamed → Formed Named index →
      Formed Named (.load name type index)
  | call {name type args} : Named name → name ∉ ["min", "max", "select"] → type.IsNamed →
      (∀ arg ∈ args, Formed Named arg) → Formed Named (.call name type args)

def Stmt.isBlock : Stmt → Bool
  | .block _ _ => true
  | _ => false

inductive Stmt.Formed (Named : String → Prop) : Stmt → Prop
  | letIn {name value body} : Named name → value.Formed Named → Formed Named body →
      Formed Named (.letIn name value body)
  | assert {condition message} : condition.Formed Named → Formed Named (.assert condition message)
  | produce {name body} : Named name → Formed Named body → Formed Named (.produce name body)
  | consume {name body} : Named name → Formed Named body → Formed Named (.consume name body)
  | loop {name min extent body} : Named name → min.Formed Named → extent.Formed Named →
      Formed Named body → Formed Named (.loop name min extent body)
  | store {name value index} : Named name → value.Formed Named → index.Formed Named →
      Formed Named (.store name value index)
  | provide {name value args} : Named name → value.Formed Named →
      (∀ arg ∈ args, arg.Formed Named) → Formed Named (.provide name value args)
  | allocate {name type extents body} : Named name → type.IsNamed → extents ≠ [] →
      (∀ extent ∈ extents, extent.Formed Named) → Formed Named body →
      Formed Named (.allocate name type extents body)
  | free {name} : Named name → Formed Named (.free name)
  | realize {name type bounds body} : Named name → type.IsNamed → bounds ≠ [] →
      (∀ bound ∈ bounds, bound.min.Formed Named ∧ bound.extent.Formed Named) →
      Formed Named body → Formed Named (.realize name type bounds body)
  | block {first rest} : first.isBlock = false → Formed Named first → Formed Named rest →
      Formed Named (.block first rest)
  | ifThen {condition thenCase} : condition.Formed Named → Formed Named thenCase →
      Formed Named (.ifThen condition thenCase)
  | ifThenElse {condition thenCase elseCase} : condition.Formed Named → Formed Named thenCase →
      Formed Named elseCase → Formed Named (.ifThenElse condition thenCase elseCase)
  | evaluate {value} : value.Formed Named → Formed Named (.evaluate value)

structure Pipeline.Formed (Named : String → Prop) (p : Pipeline) : Prop where
  name : Named p.name
  params : ∀ param ∈ p.params, Named param.name ∧ param.type.IsNamed
  body : p.body.Formed Named

def Token.Admissible (Named : String → Prop) : Token → Prop
  | .ident name => Named name
  | .int value => Int64.minValue < value
  | _ => True

section Phrases

variable {Named : String → Prop}

@[simp] theorem Token.admissible_ident {name : String} :
    (Token.ident name).Admissible Named ↔ Named name := Iff.rfl

@[simp] theorem Token.admissible_keyword {word : Keyword} :
    (Token.keyword word).Admissible Named := trivial

@[simp] theorem Token.admissible_symbol {sign : Symbol} :
    (Token.symbol sign).Admissible Named := trivial

@[simp] theorem Token.admissible_string {text : String} :
    (Token.string text).Admissible Named := trivial

theorem Token.Admissible.mono {Other : String → Prop} (weaker : ∀ name, Named name → Other name)
    {t : Token} (admissible : t.Admissible Named) : t.Admissible Other := by
  cases t with
  | ident name => exact weaker name admissible
  | int value => exact admissible
  | _ => trivial

theorem Piece.subset_row {α : Type} {pieces : List (Piece α)} {piece : Piece α}
    (membership : piece ∈ pieces) : piece.tokens ⊆ row pieces := by
  intro t isToken
  cases pieces with
  | nil => cases membership
  | cons first rest =>
    rw [row, List.mem_append]
    rcases List.mem_cons.mp membership with rfl | inRest
    · exact .inl isToken
    · exact .inr (List.mem_flatMap.mpr ⟨piece, inRest, List.mem_cons_of_mem _ isToken⟩)

theorem Piece.Listed.subset {α : Type} {pieces : List (Piece α)} {ts : List Token}
    (listed : Listed pieces ts) {piece : Piece α} (membership : piece ∈ pieces) :
    piece.tokens ⊆ ts := by
  cases listed with
  | plain => exact subset_row membership
  | trailing _ => exact List.subset_append_of_subset_left _ (subset_row membership)

theorem minValue_lt_neg {value : Int64} (isAbove : Int64.minValue < value) :
    Int64.minValue < -value := by
  rw [Int64.lt_iff_toInt_lt, toInt_neg_of_minValue_lt isAbove, Int64.toInt_minValue]
  have high := value.toInt_lt
  omega

end Phrases

namespace Grammar

variable {Named : String → Prop} {ts : List Token}

theorem IsSequence.formed {stmts : List Stmt} {s : Stmt} (isSequence : IsSequence stmts s)
    (areFormed : ∀ s ∈ stmts, s.Formed Named ∧ s.isBlock = false) : s.Formed Named := by
  induction isSequence with
  | empty => exact .evaluate (.int (by decide))
  | last => exact (List.forall_mem_singleton.mp areFormed).1
  | cons _ inductionHypothesis =>
    obtain ⟨⟨firstFormed, notBlock⟩, restFormed⟩ := List.forall_mem_cons.mp areFormed
    exact .block notBlock firstFormed (inductionHypothesis restFormed)

theorem TypeNote.isNamed {type : ScalarType} (isNote : TypeNote ts type) : type.IsNamed := by
  cases isNote with
  | missing => exact ⟨"int32", by decide⟩
  | stated isWord => exact ⟨_, isWord⟩

theorem CallMeans.formed {type : ScalarType} {name : String} {args : List Expr} {e : Expr}
    (means : CallMeans type name args e) (isName : Named name) (isNamed : type.IsNamed)
    (areFormed : ∀ arg ∈ args, arg.Formed Named) : e.Formed Named := by
  cases means with
  | min => exact .binary (areFormed _ (by simp)) (areFormed _ (by simp))
  | max => exact .binary (areFormed _ (by simp)) (areFormed _ (by simp))
  | select =>
    exact .select (areFormed _ (by simp)) (areFormed _ (by simp)) (areFormed _ (by simp))
  | call notMin notMax notSelect =>
    exact .call isName (by simp [notMin, notMax, notSelect]) isNamed areFormed

theorem Negated.formed {e negated : Expr} (isNegated : Negated e negated)
    (isFormed : e.Formed Named) : negated.Formed Named := by
  cases isNegated with
  | int =>
    cases isFormed with
    | int isAbove => exact .int (minValue_lt_neg isAbove)
  | float =>
    cases isFormed with
    | float isNamed => exact .float isNamed
  | other _ _ => exact .binary (.int (by decide)) isFormed

theorem Level.Derives.formed {l : Level} {e : Expr} (derived : l.Derives ts e)
    (admissible : ∀ t ∈ ts, t.Admissible Named) : e.Formed Named := by
  induction derived with
  | operand _ _ inductionHypothesis => exact inductionHypothesis admissible
  | binary _ _ _ leftFormed rightFormed =>
    rw [List.forall_mem_append, List.forall_mem_cons] at admissible
    exact .binary (leftFormed admissible.1) (rightFormed admissible.2.2)
  | minus _ isNegated inductionHypothesis =>
    exact isNegated.formed (inductionHypothesis (List.forall_mem_cons.mp admissible).2)
  | bang _ inductionHypothesis =>
    exact .not (inductionHypothesis (List.forall_mem_cons.mp admissible).2)
  | int => exact .int (admissible _ (List.mem_singleton_self _))
  | single => exact .float ⟨"float32", by decide⟩
  | double => exact .float ⟨"float64", by decide⟩
  | string => exact .string
  | cast isType _ inductionHypothesis =>
    exact .cast ⟨_, isType⟩ (inductionHypothesis fun t isToken =>
      admissible t (by simp [inParens, isToken]))
  | @load _ _ name _ _ isType _ inductionHypothesis =>
    have isName := admissible (.ident name) (by simp [inParens])
    exact .load isName ⟨_, isType⟩ (inductionHypothesis fun t isToken =>
      admissible t (by simp [inParens, isToken]))
  | call _ listed isNote means inductionHypothesis =>
    have isName := admissible (.ident _) List.mem_cons_self
    refine means.formed isName isNote.isNamed (List.forall_mem_map.mpr fun arg membership => ?_)
    exact inductionHypothesis arg membership fun t isToken =>
      admissible t (by simp [inParens, listed.subset membership isToken])
  | var isNote => exact .var (admissible _ List.mem_cons_self) isNote.isNamed
  | parens _ inductionHypothesis =>
    exact inductionHypothesis fun t isToken => admissible t (by simp [inParens, isToken])

theorem IsBound.formed {bound : Bound} (isBound : IsBound ts bound)
    (admissible : ∀ t ∈ ts, t.Admissible Named) :
    bound.min.Formed Named ∧ bound.extent.Formed Named := by
  cases isBound with
  | mk isMin isExtent =>
    simp only [inBrackets, List.forall_mem_append, List.forall_mem_cons] at admissible
    exact ⟨isMin.formed admissible.2.1.1, isExtent.formed admissible.2.1.2.2⟩

/-- A statement of admissible tokens is well formed and no sequence, when the blocks in it are well
formed. -/
theorem IsStmt.formed {Block : List Token → Stmt → Prop} {s : Stmt} (isStmt : IsStmt Block ts s)
    (blocks : ∀ ⦃body s⦄, body.length ≤ ts.length → (∀ t ∈ body, t.Admissible Named) →
      Block body s → s.Formed Named)
    (admissible : ∀ t ∈ ts, t.Admissible Named) : s.Formed Named ∧ s.isBlock = false := by
  refine ⟨?_, by cases isStmt <;> rfl⟩
  cases isStmt <;>
    simp only [inParens, inBrackets, angled, List.forall_mem_append, List.forall_mem_cons,
      List.not_mem_nil, false_implies, implies_true, Token.admissible_ident,
      Token.admissible_keyword, Token.admissible_symbol, Token.admissible_string, true_and,
      and_true] at admissible
  case letIn isExpr isBlock =>
    obtain ⟨isName, inValue, inBody⟩ := admissible
    exact .letIn isName (isExpr.formed inValue) (blocks (by simp; omega) inBody isBlock)
  case loop isMin isExtent isBlock =>
    obtain ⟨⟨isName, inMin, inExtent⟩, inBody⟩ := admissible
    exact .loop isName (isMin.formed inMin) (isExtent.formed inExtent)
      (blocks (by simp; omega) inBody isBlock)
  case ifThen isExpr isBlock =>
    obtain ⟨inCondition, inBody⟩ := admissible
    exact .ifThen (isExpr.formed inCondition) (blocks (by simp; omega) inBody isBlock)
  case ifThenElse isExpr isFirst isSecond =>
    obtain ⟨inCondition, inFirst, inSecond⟩ := admissible
    exact .ifThenElse (isExpr.formed inCondition) (blocks (by simp; omega) inFirst isFirst)
      (blocks (by simp; omega) inSecond isSecond)
  case allocate isType nonempty areExprs isBlock =>
    obtain ⟨isName, -, inExtents, inBody⟩ := admissible
    refine .allocate isName ⟨_, isType⟩ (by simpa using nonempty) ?_
      (blocks (by simp; omega) inBody isBlock)
    refine List.forall_mem_map.mpr fun extent membership => ?_
    exact (areExprs extent membership).formed fun t isToken =>
      inExtents t (Piece.subset_row membership isToken)
  case free => exact .free admissible
  case realize isType nonempty areBounds isBlock =>
    obtain ⟨isName, -, inBounds, inBody⟩ := admissible
    refine .realize isName ⟨_, isType⟩ (by simpa using nonempty) ?_
      (blocks (by simp; omega) inBody isBlock)
    refine List.forall_mem_map.mpr fun bound membership => ?_
    exact (areBounds bound membership).formed fun t isToken =>
      inBounds t (Piece.subset_row membership isToken)
  case produce isBlock => exact .produce admissible.1 (blocks (by simp; omega) admissible.2 isBlock)
  case consume isBlock => exact .consume admissible.1 (blocks (by simp; omega) admissible.2 isBlock)
  case assert isExpr => exact .assert (isExpr.formed admissible)
  case store isIndex isValue =>
    obtain ⟨isName, inIndex, inValue⟩ := admissible
    exact .store isName (isValue.formed inValue) (isIndex.formed inIndex)
  case provide areExprs listed isValue =>
    obtain ⟨isName, inArgs, inValue⟩ := admissible
    refine .provide isName (isValue.formed inValue) ?_
    refine List.forall_mem_map.mpr fun arg membership => ?_
    exact (areExprs arg membership).formed fun t isToken =>
      inArgs t (listed.subset membership isToken)
  case evaluate isExpr => exact .evaluate (isExpr.formed admissible)

theorem IsItem.formed {Block : List Token → Stmt → Prop} {s : Stmt} (isItem : IsItem Block ts s)
    (blocks : ∀ ⦃body s⦄, body.length ≤ ts.length → (∀ t ∈ body, t.Admissible Named) →
      Block body s → s.Formed Named)
    (admissible : ∀ t ∈ ts, t.Admissible Named) : s.Formed Named ∧ s.isBlock = false := by
  cases isItem with
  | mk semicolons isStmt =>
    apply isStmt.formed
    · intro body s shorter
      exact blocks (by rw [List.length_append]; omega)
    · exact (List.forall_mem_append.mp admissible).1

/-- A block of admissible tokens is well formed: it nests its statements to the right. -/
theorem IsBlock.formed {s : Stmt} (isBlock : IsBlock ts s)
    (admissible : ∀ t ∈ ts, t.Admissible Named) : s.Formed Named := by
  -- The blocks inside have fewer tokens, without the braces around them.
  induction bound : ts.length using Nat.strongRecOn generalizing ts s with
  | ind n inductionHypothesis =>
    cases isBlock with
    | @mk semicolons items s areItems isSequence =>
      refine isSequence.formed (List.forall_mem_map.mpr fun item membership => ?_)
      have fewer := Parser.length_tokens_le membership Piece.tokens
      simp only [inBraces, List.length_cons, List.length_append] at bound
      have inItem : ∀ t ∈ item.tokens, t.Admissible Named := by
        intro t isToken
        have inItems := List.mem_flatMap.mpr ⟨item, membership, isToken⟩
        exact admissible t (by simp [inBraces, inItems])
      exact (areItems item membership).formed (fun body s shorter inBody isBlock =>
        inductionHypothesis body.length (by omega) isBlock inBody rfl) inItem

theorem IsParam.formed {param : Param} (isParam : IsParam ts param)
    (admissible : ∀ t ∈ ts, t.Admissible Named) : Named param.name ∧ param.type.IsNamed := by
  cases isParam with
  | @buffer name word _ isType => exact ⟨admissible (.ident name) (by simp), word, isType⟩
  | @scalar name word _ isType => exact ⟨admissible (.ident name) (by simp), word, isType⟩

theorem IsPipeline.formed {p : Pipeline} (isPipeline : IsPipeline ts p)
    (admissible : ∀ t ∈ ts, t.Admissible Named) : p.Formed Named := by
  cases isPipeline with
  | @mk name params inner body s areParams listed isBlock =>
    simp only [inParens, List.forall_mem_append, List.forall_mem_cons,
      Token.admissible_ident] at admissible
    obtain ⟨-, isName, ⟨-, inParams, -⟩, inBody⟩ := admissible
    refine ⟨isName, List.forall_mem_map.mpr fun param membership => ?_, isBlock.formed inBody⟩
    exact (areParams param membership).formed fun t isToken =>
      inParams t (listed.subset membership isToken)

theorem isPipeline_of_parse {source : String} {p : Pipeline}
    (isParsed : (parse source).pipeline = some p) :
    IsPipeline (Parser.tokensOf (lex source).tokens) p ∧
      (parse source).errors = (lex source).errors.map lexError := by
  unfold parse at isParsed ⊢
  dsimp only at isParsed ⊢
  split at isParsed
  · next isResult =>
    cases isParsed
    exact ⟨(parseTokens_eq_some_iff.mp isResult).2, rfl⟩
  · cases isParsed

end Grammar

namespace Lexer

section Tokens

theorem minValue_lt_of_int64? {n : Nat} {value : Int64} (fits : int64? n = some value) :
    Int64.minValue < value := by
  rw [Int64.lt_iff_toInt_lt, int64?_eq_some_iff.mp fits, Int64.toInt_minValue]
  omega

variable {t : Token} {offset : Nat} {cs : List Char}

/-- A token of a text is its first lexeme or a token of what stands behind that. -/
theorem kind_eq_or_mem_tokens {first : Char}
    (isToken : t ∈ (collect offset (lexemes (first :: cs))).tokens.map Prod.fst) :
    (next first cs).kind = .token t ∨
      t ∈ (collect (offset + byteLength (next first cs).text)
        (lexemes (behind first cs))).tokens.map Prod.fst := by
  rw [lexemes_cons, collect] at isToken
  split at isToken
  · exact .inr isToken
  · next token isKind =>
    rcases List.mem_cons.mp isToken with rfl | inLater
    · exact .inl isKind
    · exact .inr inLater
  · exact .inr isToken

theorem errors_behind_subset (offset : Nat) (first : Char) (cs : List Char) :
    (collect (offset + byteLength (next first cs).text) (lexemes (behind first cs))).errors ⊆
      (collect offset (lexemes (first :: cs))).errors := by
  rw [lexemes_cons, collect]
  split
  · exact List.Subset.refl _
  · exact List.Subset.refl _
  · exact List.subset_cons_self _ _

/-- Every token of a text is the first lexeme of some end of it, and the errors of that end are
errors of the text. -/
theorem exists_next_of_mem_tokens
    (isToken : t ∈ (collect offset (lexemes cs)).tokens.map Prod.fst) :
    ∃ before first more, cs = before ++ first :: more ∧ (next first more).kind = .token t ∧
      (collect (offset + byteLength before) (lexemes (first :: more))).errors ⊆
        (collect offset (lexemes cs)).errors := by
  induction cs using byLexemes generalizing offset with
  | nil => simp [lexemes, collect] at isToken
  | cons first cs inductionHypothesis =>
    rcases kind_eq_or_mem_tokens isToken with isKind | inLater
    · exact ⟨[], first, cs, rfl, isKind, List.Subset.refl _⟩
    · obtain ⟨before, c, more, isBehind, isKind, kept⟩ := inductionHypothesis inLater
      refine ⟨(next first cs).text ++ before, c, more, ?_, isKind, ?_⟩
      · rw [List.append_assoc, ← isBehind, text_next_append]
      · rw [byteLength_append, ← Nat.add_assoc]
        exact List.Subset.trans kept (errors_behind_subset offset first cs)

theorem admissible_number {first : Char} (isKind : (numberLexeme first cs).kind = .token t)
    (Named : String → Prop) : t.Admissible Named := by
  unfold numberLexeme at isKind
  extract_lets whole rest fraction at isKind
  split at isKind
  · split at isKind
    · next value isValue =>
      cases isKind
      exact minValue_lt_of_int64? isValue
    · cases isKind
  · unfold fractionLexeme at isKind
    dsimp only at isKind
    split at isKind <;> cases isKind <;> trivial

theorem admissible_string {first : Char} (isKind : (stringLexeme first cs).kind = .token t)
    (Named : String → Prop) : t.Admissible Named := by
  unfold stringLexeme at isKind
  dsimp only at isKind
  split at isKind
  · split at isKind <;> cases isKind
    trivial
  · cases isKind

theorem admissible_symbol {first : Char} (isKind : (symbolLexeme first cs).kind = .token t)
    (Named : String → Prop) : t.Admissible Named := by
  unfold symbolLexeme at isKind
  split at isKind
  · cases isKind
    trivial
  · split at isKind <;> cases isKind
    trivial

/-- A token that does not start like a word is admissible, whatever names are admitted. -/
theorem admissible_of_not_isWordStart {first : Char} (isKind : (next first cs).kind = .token t)
    (noWord : ¬ isWordStart first = true) (Named : String → Prop) : t.Admissible Named := by
  rw [next] at isKind
  split at isKind
  · cases isKind
  split at isKind
  · cases isKind
  split at isKind
  · exact admissible_number isKind Named
  split at isKind
  · exact admissible_string isKind Named
  · exact admissible_symbol isKind Named

/-- A word is a keyword, or a name of its text. The name has the spelling of a keyword only before
a point. -/
theorem wordLexeme_cases (first : Char) (cs : List Char) :
    (∃ keyword, (wordLexeme first cs).kind = .token (.keyword keyword)) ∨
      (wordLexeme first cs).kind = .token (.ident (String.ofList (first :: identTail cs))) ∧
      (Keyword.ofWord? (String.ofList (first :: identTail cs)) = none ∨
        (cs.drop (identTail cs).length).head? = some '.') := by
  unfold wordLexeme
  dsimp only
  split
  · next isPoint => exact .inr ⟨rfl, .inr isPoint⟩
  · split
    · next keyword _ => exact .inl ⟨keyword, rfl⟩
    · next noKeyword => exact .inr ⟨rfl, .inl noKeyword⟩

theorem wordLexeme_text (first : Char) (cs : List Char) :
    (wordLexeme first cs).text = first :: identTail cs := by
  unfold wordLexeme
  dsimp only
  split
  · rfl
  · split <;> rfl

theorem next_point (cs : List Char) : next '.' cs = ⟨'.', [], .invalid⟩ := by
  have noPair :
      cs.head?.bind (fun second => (Symbol.ofPair? '.' second).map (second, ·)) = none := by
    cases cs.head? <;> rfl
  have isNext : next '.' cs = symbolLexeme '.' cs := by simp [next, isBlank, isWordStart]
  rw [isNext, symbolLexeme, noPair]
  rfl

theorem error_at_point {first : Char} {more after : List Char}
    (isBehind : behind first more = '.' :: after) (offset : Nat) :
    let stop := offset + byteLength (next first more).text
    ⟨⟨stop, stop + byteLength ['.']⟩, ['.']⟩ ∈
      (collect offset (lexemes (first :: more))).errors := by
  apply errors_behind_subset offset first more
  rw [isBehind, lexemes_cons, next_point]
  exact List.mem_cons_self

end Tokens

end Lexer

def BeforeStrayPoint (source name : String) : Prop :=
  ∃ (span : Span) (before after : List Char),
    span.Cuts source (before ++ name.toList) ['.'] after ∧ ⟨span, ['.']⟩ ∈ (lex source).errors

open Lexer Grammar

theorem beforeStrayPoint_of_behind {source : String} {before more after : List Char} {first : Char}
    (isSource : source.toList = before ++ first :: more)
    (kept : (collect (byteLength before) (lexemes (first :: more))).errors ⊆ (lex source).errors)
    (isBehind : behind first more = '.' :: after) :
    BeforeStrayPoint source (String.ofList (next first more).text) := by
  refine ⟨_, before, after, ?_, kept (error_at_point isBehind _)⟩
  rw [String.toList_ofList]
  refine ⟨?_, (byteLength_append _ _).symm, ?_⟩
  · rw [isSource, ← text_next_append, isBehind, List.append_assoc]
    rfl
  · rw [byteLength_append]

/-- The tokens of a source are admissible, when the names are words, and keywords only before a
stray point. -/
theorem admissible_lex {source : String} {t : Token}
    (isToken : t ∈ Parser.tokensOf (lex source).tokens) :
    t.Admissible fun name =>
      IsWord name.toList ∧ (Keyword.ofWord? name = none ∨ BeforeStrayPoint source name) := by
  obtain ⟨before, first, more, isSource, isKind, kept⟩ := exists_next_of_mem_tokens isToken
  rw [Nat.zero_add] at kept
  by_cases starts : isWordStart first = true
  · have isNext := next_of_isWordStart starts more
    have isText : (next first more).text = first :: identTail more := by
      rw [isNext, wordLexeme_text]
    rcases wordLexeme_cases first more with ⟨keyword, isKeyword⟩ | ⟨isIdent, spelling⟩
    · rw [isNext, isKeyword] at isKind
      cases isKind
      trivial
    · rw [isNext, isIdent] at isKind
      cases isKind
      refine ⟨by simpa using isWord_identTail starts more, spelling.imp id fun isPoint => ?_⟩
      obtain ⟨after, isAfter⟩ := List.head?_eq_some_iff.mp isPoint
      have isBehind : behind first more = '.' :: after := by
        rw [← isAfter, behind, (List.cons_eq_cons.mp isText).2]
      rw [← isText]
      exact beforeStrayPoint_of_behind isSource kept isBehind
  · exact admissible_of_not_isWordStart isKind starts _

/-- Whatever is parsed is well formed. Its names are words, and a name that is a keyword stands
right before a point that is an error of the source; in a source without errors there is none. -/
theorem parse_formed (source : String) (p : Pipeline)
    (isParsed : (parse source).pipeline = some p) :
    p.Formed (fun name =>
        IsWord name.toList ∧ (Keyword.ofWord? name = none ∨ BeforeStrayPoint source name)) ∧
      ((parse source).errors = [] → p.Formed IsName) := by
  obtain ⟨isPipeline, areErrors⟩ := Grammar.isPipeline_of_parse isParsed
  refine ⟨isPipeline.formed fun t => admissible_lex, fun noErrors => ?_⟩
  rw [areErrors, List.map_eq_nil_iff] at noErrors
  refine isPipeline.formed fun t isToken => (admissible_lex isToken).mono ?_
  rintro name ⟨isWord, noKeyword | ⟨span, before, after, _, isError⟩⟩
  · exact ⟨isWord, noKeyword⟩
  · rw [noErrors] at isError
    cases isError

def signedSource : String := "func f() \x7b - -9223372036854775807; ; a.b; \x7d"

def signedPipeline : Pipeline :=
  ⟨"f", [], .block (.evaluate (.ofInt (- -Int64.maxValue))) (.evaluate (.var "a.b" .default))⟩

theorem parse_signedSource : parse signedSource = ⟨some signedPipeline, []⟩ := by
  have isLiteral : Level.signed.Derives [.int Int64.maxValue] (.ofInt Int64.maxValue) :=
    .operand (by decide) .int
  have isSigned : IsStmt IsBlock _ (.evaluate (.ofInt (- -Int64.maxValue))) :=
    .evaluate (((isLiteral.minus .int).minus .int).loosen (by decide))
  have isVar : Level.atom.Derives [.ident "a.b"] (.var "a.b" .default) := .var .missing
  have isNamed : IsStmt IsBlock _ (.evaluate (.var "a.b" .default)) :=
    .evaluate (isVar.loosen (by decide))
  have areItems : ∀ item ∈ [Piece.mk _ (.evaluate (.ofInt (- -Int64.maxValue))),
      Piece.mk _ (.evaluate (.var "a.b" .default))], IsItem IsBlock item.tokens item.value :=
    List.forall_mem_cons.mpr ⟨.mk 1 isSigned, List.forall_mem_singleton.mpr (.mk 0 isNamed)⟩
  have isPipeline : IsPipeline _ signedPipeline :=
    .mk (List.forall_mem_nil _) .plain (.mk 0 areItems (.cons .last))
  have noErrors : (lex signedSource).errors = [] := by decide +kernel
  rw [parse_of_isPipeline (by decide +kernel) isPipeline, noErrors, List.map_nil]

theorem parse_formed_signedSource :
    parse signedSource = ⟨some signedPipeline, []⟩ ∧ signedPipeline.Formed IsName := by
  have isParsed := parse_formed signedSource signedPipeline (by rw [parse_signedSource])
  exact ⟨parse_signedSource, isParsed.2 (by rw [parse_signedSource])⟩

/-- A keyword before a stray point becomes a name, although the point is reported. -/
theorem keyword_parsed_as_name :
    (parse "func f() \x7b for.; \x7d").pipeline = some ⟨"f", [], .evaluate (.var "for" .default)⟩ ∧
      ¬ IsName "for" := by
  refine ⟨?_, fun isName => by cases isName.2⟩
  have isVar : Level.atom.Derives [.ident "for"] (.var "for" .default) := .var .missing
  have isPipeline := isPipeline_evaluate (isVar.loosen (by decide))
  rw [parse_of_isPipeline (by decide +kernel) isPipeline]

end StreamSynth
