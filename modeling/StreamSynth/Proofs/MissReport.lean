import StreamSynth.Compile
import StreamSynth.Proofs.ExprParsing

/-!
# Every failure is reported

A parser that fails has noted a miss, whatever was forgotten before, and the miss stands at tokens
of the text or at its end. This holds of each combinator when it holds of its parts, and so of the
whole grammar, where expressions and blocks are nested less deep than the text has tokens.
-/

namespace StreamSynth

def Span.OverTokens (tokens : Input) (span : Span) : Prop :=
  ∃ (i j : Nat) (first last : Token × Span), i ≤ j ∧ tokens[i]? = some first ∧
    tokens[j]? = some last ∧ span = ⟨first.2.start, last.2.stop⟩

/-- The remembered miss, if there is one, stands at tokens of the text or at its end. -/
def Located (tokens : Input) (remembered : Option Miss) : Prop :=
  ∀ miss ∈ remembered, ∀ span ∈ miss.span, span.OverTokens tokens

theorem located_none (tokens : Input) : Located tokens none := by
  rintro miss ⟨⟩

namespace Miss

variable {tokens input : Input} {remembered : Option Miss}

theorem here_located (suffix : input <:+ tokens) (entry : Expected) :
    Located tokens (some (here input entry)) := by
  rintro miss ⟨⟩ span isSpan
  obtain ⟨before, rfl⟩ := suffix
  cases input with
  | nil => cases isSpan
  | cons head rest =>
    cases isSpan
    exact ⟨before.length, before.length, head, head, Nat.le_refl _, by simp, by simp, rfl⟩

theorem expect_isSome (input : Input) (entry : Expected) (remembered : Option Miss) :
    (expect input entry remembered).isSome := by
  unfold expect
  split
  · rfl
  · split
    · rfl
    · split
      · rfl
      · split <;> rfl

theorem expect_located (suffix : input <:+ tokens) (entry : Expected)
    (located : Located tokens remembered) : Located tokens (expect input entry remembered) := by
  unfold expect
  split
  · exact here_located suffix entry
  · next miss =>
    split
    · exact here_located suffix entry
    · split
      · exact located
      · split
        · exact located
        · rintro _ ⟨⟩
          exact located miss rfl

theorem merge_isSome (new : Miss) (remembered : Option Miss) : (merge new remembered).isSome := by
  unfold merge
  split
  · rfl
  · split
    · rfl
    · split <;> rfl

theorem merge_located {new : Miss} (newLocated : Located tokens (some new))
    (located : Located tokens remembered) : Located tokens (merge new remembered) := by
  unfold merge
  split
  · exact newLocated
  · next old =>
    split
    · exact newLocated
    · split
      · exact located
      · rintro _ ⟨⟩
        exact located old rfl

end Miss

/-- The outcome of an attempt at `input` explains itself: what is left is an end of `input`, a
remembered miss stays located and is not lost, and a failure leaves one. -/
structure Outcome.Explained {α : Type} (tokens input : Input) (o : Outcome α) : Prop where
  rest_suffix : ∀ {value rest}, o.result = some (value, rest) → rest <:+ input
  located : ∀ {m}, Located tokens m → Located tokens (o.note m)
  reports : ∀ {m}, o.result = none ∨ m.isSome = true → (o.note m).isSome = true

namespace Outcome.Explained

variable {α β γ : Type} {tokens input middle rest : Input} {first : Outcome α}

theorem success (value : α) (suffix : rest <:+ input) :
    Outcome.Explained tokens input ⟨some (value, rest), id⟩ where
  rest_suffix := by
    rintro _ _ ⟨⟩
    exact suffix
  located := id
  reports := by
    rintro m (⟨⟨⟩⟩ | kept)
    exact kept

/-- What an attempt noted stays noted when its failure or value is turned into a value. -/
theorem answered (explained : first.Explained tokens input) (value : β) (suffix : rest <:+ input) :
    Outcome.Explained tokens input ⟨some (value, rest), first.note⟩ where
  rest_suffix := by
    rintro _ _ ⟨⟩
    exact suffix
  located := explained.located
  reports := by
    rintro m (⟨⟨⟩⟩ | kept)
    exact explained.reports (.inr kept)

theorem followed {second : Outcome β} {result : Option (γ × Input)}
    (explained : first.Explained tokens input) (suffix : middle <:+ input)
    (next : second.Explained tokens middle)
    (decides : result.map Prod.snd = second.result.map Prod.snd) :
    Outcome.Explained tokens input ⟨result, fun miss => second.note (first.note miss)⟩ where
  rest_suffix := by
    rintro value rest rfl
    obtain ⟨⟨_, _⟩, isResult, rfl⟩ := Option.map_eq_some_iff.mp decides.symm
    exact (next.rest_suffix isResult).trans suffix
  located located := next.located (explained.located located)
  reports := by
    rintro m (rfl | kept)
    · exact next.reports (.inl (Option.map_eq_none_iff.mp decides.symm))
    · exact next.reports (.inr (explained.reports (.inr kept)))

end Outcome.Explained

namespace Parser

variable {α β : Type} {tokens : Input} {n : Nat}

def Explains (tokens : Input) (n : Nat) (p : Parser α) : Prop :=
  ∀ ⦃input⦄, input <:+ tokens → input.length < n → (p input).Explained tokens input

theorem spanRead_overTokens {input rest : Input} {span : Span} (inText : input <:+ tokens)
    (suffix : rest <:+ input) (isSpan : spanRead input rest = some span) :
    span.OverTokens tokens := by
  obtain ⟨before, rfl⟩ := inText
  obtain ⟨read, rfl⟩ := suffix
  have isRead : (read ++ rest).take ((read ++ rest).length - rest.length) = read := by
    rw [List.length_append, Nat.add_sub_cancel, List.take_left]
  simp only [spanRead, isRead] at isSpan
  split at isSpan
  · next firstToken first lastToken last isFirst isLast =>
    cases isSpan
    have nonempty : read ≠ [] := by
      rintro rfl
      cases isFirst
    have last_lt : read.length - 1 < read.length :=
      Nat.sub_one_lt (Nat.ne_of_gt (List.length_pos_iff.mpr nonempty))
    rw [List.head?_eq_getElem?] at isFirst
    rw [List.getLast?_eq_getElem?] at isLast
    refine ⟨before.length, before.length + (read.length - 1), (firstToken, first),
      (lastToken, last), Nat.le_add_right _ _, ?_, ?_, rfl⟩
    · rw [List.getElem?_append_right (Nat.le_refl _), Nat.sub_self,
        List.getElem?_append_left (List.length_pos_iff.mpr nonempty), isFirst]
    · rw [List.getElem?_append_right (Nat.le_add_right _ _), Nat.add_sub_cancel_left,
        List.getElem?_append_left last_lt, isLast]
  · cases isSpan

namespace Explains

theorem mono {p : Parser α} {m : Nat} (explains : p.Explains tokens n) (le : m ≤ n) :
    p.Explains tokens m :=
  fun _ suffix short => explains suffix (Nat.lt_of_lt_of_le short le)

/-- Behind what an attempt read, fewer tokens are left and they are an end of the text still. -/
theorem behind {p : Parser α} {input rest : Input} (explains : p.Explains tokens n)
    (suffix : rest <:+ input) (inText : input <:+ tokens) (short : input.length < n) :
    (p rest).Explained tokens rest :=
  explains (suffix.trans inText) (Nat.lt_of_le_of_lt suffix.length_le short)

theorem pure (a : α) : (Pure.pure a : Parser α).Explains tokens n :=
  fun _ _ _ => .success a List.suffix_rfl

/-- Parsers in a row, where the second is only asked for behind what the first one read. -/
theorem bind_reads {p : Parser α} {next : α → Parser β} (first : p.Explains tokens n)
    (second : ∀ {input value rest}, p.Reads input value rest → rest <:+ input →
      input <:+ tokens → input.length < n → (next value rest).Explained tokens rest) :
    (p >>= next).Explains tokens n := by
  intro input inText short
  have explained := first inText short
  change (andThen p next input).Explained tokens input
  rw [andThen]
  cases isResult : (p input).result with
  | none =>
    exact
      { rest_suffix := by rintro _ _ ⟨⟩
        located := explained.located
        reports := fun _ => explained.reports (.inl isResult) }
  | some found =>
    obtain ⟨value, rest⟩ := found
    have suffix := explained.rest_suffix isResult
    exact explained.followed suffix (second isResult suffix inText short) rfl

theorem bind {p : Parser α} {next : α → Parser β} (first : p.Explains tokens n)
    (second : ∀ a, (next a).Explains tokens n) : (p >>= next).Explains tokens n :=
  first.bind_reads fun _ suffix inText short => (second _).behind suffix inText short

theorem expected (entry : Expected) : (expected entry : Parser α).Explains tokens n := by
  intro input inText _
  exact
    { rest_suffix := by rintro _ _ ⟨⟩
      located := Miss.expect_located inText entry
      reports := fun _ => Miss.expect_isSome _ _ _ }

theorem accept (entry : Expected) (view : Token → Option α) :
    (accept entry view).Explains tokens n := by
  intro input inText short
  unfold Parser.accept
  split
  · exact expected entry inText short
  · split
    · exact .success _ (List.suffix_cons _ _)
    · exact expected entry inText short

theorem symbol (sign : Symbol) : (symbol sign).Explains tokens n := accept _ _

theorem accept_bind {entry : Expected} {view : Token → Option α} {next : α → Parser β}
    (second : ∀ a, (next a).Explains tokens n) :
    (Parser.accept entry view >>= next).Explains tokens (n + 1) := by
  apply (accept entry view).bind_reads
  intro input value rest reads suffix inText short
  obtain ⟨token, span, rfl, _⟩ := reads_accept.mp reads
  exact second value (suffix.trans inText) (Nat.lt_of_succ_lt_succ short)

theorem atEnd : atEnd.Explains tokens n := by
  intro input inText short
  unfold Parser.atEnd
  split
  · exact .success _ List.suffix_rfl
  · exact expected _ inText short

theorem orElse {p q : Parser α} (left : p.Explains tokens n) (right : q.Explains tokens n) :
    (orElse p q).Explains tokens n := by
  intro input inText short
  have explained := left inText short
  unfold Parser.orElse
  dsimp only
  split
  · exact explained
  · exact explained.followed List.suffix_rfl (right inText short) rfl

theorem choice {ps : List (Parser α)} (nonempty : ps ≠ [])
    (explains : ∀ p ∈ ps, p.Explains tokens n) : (choice ps).Explains tokens n := by
  fun_induction Parser.choice ps with
  | case1 => exact absurd rfl nonempty
  | case2 p => exact explains p (by simp)
  | case3 p q rest inductionHypothesis =>
    apply orElse (explains p (by simp))
    exact inductionHypothesis (by simp) fun p membership =>
      explains p (List.mem_cons_of_mem _ membership)

theorem oneOf {table : List (Token × α)} (nonempty : table ≠ []) :
    (oneOf table).Explains tokens n := by
  apply choice (by simpa using nonempty)
  intro p membership
  obtain ⟨⟨t, a⟩, _, rfl⟩ := List.mem_map.mp membership
  exact (accept _ _).bind fun _ => pure a

theorem optional {p : Parser α} (explains : p.Explains tokens n) :
    (optional p).Explains tokens n := by
  intro input inText short
  have explained := explains inText short
  unfold Parser.optional
  dsimp only
  split
  · next isResult => exact explained.answered _ (explained.rest_suffix isResult)
  · exact explained.answered _ List.suffix_rfl

theorem repeatUpTo {p : Parser α} (explains : p.Explains tokens n) (bound : Nat) :
    (repeatUpTo p bound).Explains tokens n := by
  induction bound with
  | zero => exact pure []
  | succ bound inductionHypothesis =>
    intro input inText short
    have explained := explains inText short
    unfold Parser.repeatUpTo
    dsimp only
    split
    · exact explained.answered _ List.suffix_rfl
    · next isResult =>
      have suffix := explained.rest_suffix isResult
      apply explained.followed suffix (inductionHypothesis.behind suffix inText short)
      simp [Function.comp_def]

theorem many {p : Parser α} (explains : p.Explains tokens n) : (many p).Explains tokens n :=
  fun _ inText short => explains.repeatUpTo _ inText short

theorem separated {p : Parser α} {separator : Parser Unit} (explains : p.Explains tokens n)
    (separates : separator.Explains tokens n) (trailing : Bool) :
    (separated p separator trailing).Explains tokens n := by
  apply separates.bind
  intro _
  cases trailing with
  | true => exact explains.optional
  | false => exact explains.bind fun _ => pure _

theorem rowUpTo {p : Parser α} {separator : Parser Unit} (explains : p.Explains tokens n)
    (separates : separator.Explains tokens n) (trailing : Bool) (bound : Nat) :
    (rowUpTo p separator trailing bound).Explains tokens n := by
  induction bound with
  | zero => exact pure []
  | succ bound inductionHypothesis =>
    intro input inText short
    have explained := explains.separated separates trailing inText short
    unfold Parser.rowUpTo
    dsimp only
    split
    · exact explained.answered _ List.suffix_rfl
    · next isResult => exact explained.answered _ (explained.rest_suffix isResult)
    · next isResult =>
      have suffix := explained.rest_suffix isResult
      apply explained.followed suffix (inductionHypothesis.behind suffix inText short)
      simp [Function.comp_def]

theorem commaRow {p : Parser α} (explains : p.Explains tokens n) :
    (commaRow p).Explains tokens n := by
  apply explains.bind
  intro first
  apply bind
  · exact fun _ inText short => explains.rowUpTo (symbol .comma) false _ inText short
  · exact fun _ => pure _

theorem commaRowTrailing {p : Parser α} (explains : p.Explains tokens n) :
    (commaRowTrailing p).Explains tokens n := by
  intro input inText short
  have explained := explains inText short
  unfold Parser.commaRowTrailing
  dsimp only
  split
  · exact explained.answered _ List.suffix_rfl
  · next isResult =>
    have suffix := explained.rest_suffix isResult
    apply explained.followed suffix
      ((explains.rowUpTo (symbol .comma) true _).behind suffix inText short)
    simp [Function.comp_def]

/-- What stands between two symbols starts behind the first of them. -/
theorem enclosed {p : Parser α} (opening closing : Symbol) (explains : p.Explains tokens n) :
    (between opening closing p).Explains tokens (n + 1) :=
  accept_bind fun _ => explains.bind fun _ => (symbol closing).bind fun _ => pure _

theorem between {p : Parser α} (opening closing : Symbol) (explains : p.Explains tokens n) :
    (Parser.between opening closing p).Explains tokens n :=
  (explains.enclosed opening closing).mono (Nat.le_succ n)

theorem refine {p : Parser α} (explains : p.Explains tokens n) (view : α → Except String β) :
    (refine p view).Explains tokens n := by
  intro input inText short
  have explained := explains inText short
  have inner : Located tokens ((p input).note none) := explained.located (located_none tokens)
  unfold Parser.refine
  dsimp only
  split
  · next failed =>
    exact
      { rest_suffix := by rintro _ _ ⟨⟩
        located := fun _ => inner
        reports := fun _ => explained.reports (.inl failed) }
  · next value rest isResult =>
    have suffix := explained.rest_suffix isResult
    split
    · cases noted : (p input).note none with
      | none => exact .success _ suffix
      | some new =>
        rw [noted] at inner
        have moved : Located tokens (some { new with left := input.length }) := by
          rintro _ ⟨⟩
          exact inner new rfl
        exact
          { rest_suffix := by rintro _ _ ⟨⟩; exact suffix
            located := Miss.merge_located moved
            reports := fun _ => Miss.merge_isSome _ _ }
    · next text _ =>
      have refused : Located tokens
          (some ⟨input.length, spanRead input rest, .message text⟩) := by
        rintro _ ⟨⟩ span isSpan
        exact spanRead_overTokens inText suffix isSpan
      exact
        { rest_suffix := by rintro _ _ ⟨⟩
          located := Miss.merge_located refused
          reports := fun _ => Miss.merge_isSome _ _ }

end Explains

end Parser

namespace Grammar

open StreamSynth.Parser

variable {tokens : Input} {n : Nat}

section Expressions

theorem explains_typeWord : typeWord.Explains tokens n := (Explains.accept _ _).refine _

theorem explains_typeNote : typeNote.Explains tokens n :=
  (Explains.symbol _).bind fun _ => explains_typeWord

theorem explains_angleType : angleType.Explains tokens n := explains_typeWord.between _ _

variable {expr : Parser Expr}

theorem explains_castExpr (explains : expr.Explains tokens n) :
    (castExpr expr).Explains tokens (n + 1) :=
  Explains.accept_bind fun _ => explains_angleType.bind fun _ =>
    (explains.between _ _).bind fun _ => .pure _

theorem explains_loadExpr (explains : expr.Explains tokens n) :
    (loadExpr expr).Explains tokens (n + 1) :=
  Explains.accept_bind fun _ => explains_angleType.bind fun _ =>
    Explains.bind (Explains.between _ _ <| (Explains.accept _ _).bind fun _ =>
      (Explains.symbol _).bind fun _ => explains.bind fun _ => .pure _) fun _ => .pure _

theorem explains_arguments (explains : expr.Explains tokens n) :
    (arguments expr).Explains tokens n := explains.commaRowTrailing.between _ _

theorem explains_callExpr (explains : expr.Explains tokens n) :
    (callExpr expr).Explains tokens (n + 1) :=
  Explains.refine (Explains.accept_bind fun _ => (explains_arguments explains).bind fun _ =>
    explains_typeNote.optional.bind fun _ => .pure _) _

theorem explains_varExpr : varExpr.Explains tokens n :=
  (Explains.accept _ _).bind fun _ => explains_typeNote.optional.bind fun _ => .pure _

/-- An expression inside an atom starts behind the first token of the atom. -/
theorem explains_atom (explains : expr.Explains tokens n) :
    (atom expr).Explains tokens (n + 1) := by
  apply Explains.choice (List.cons_ne_nil _ _)
  simp only [List.forall_mem_cons]
  exact ⟨.accept _ _, explains_castExpr explains, explains_loadExpr explains,
    explains_callExpr explains, explains_varExpr, explains.enclosed _ _, List.forall_mem_nil _⟩

theorem explains_signed (explains : expr.Explains tokens n) :
    (signed expr).Explains tokens (n + 1) := by
  have explains_signs : signs.Explains tokens (n + 1) :=
    (Explains.oneOf (List.cons_ne_nil _ _)).many
  rw [signed_eq]
  exact explains_signs.bind fun _ => (explains_atom explains).bind fun _ => .pure _

theorem explains_level {l : Level} (notSigned : l ≠ .signed) (notAtom : l ≠ .atom)
    (operands : (l.operand.parser expr).Explains tokens n) :
    (l.parser expr).Explains tokens n := by
  have operators : l.operator.Explains tokens n := by
    apply Explains.oneOf
    cases l with
    | signed => exact absurd rfl notSigned
    | atom => exact absurd rfl notAtom
    | _ => exact List.cons_ne_nil _ _
  rw [l.parser_eq_level expr notSigned notAtom]
  exact operands.bind fun _ =>
    (Explains.many (operators.bind fun _ => operands.bind fun _ => .pure _)).bind fun _ => .pure _

theorem explains_parserAt (explains : expr.Explains tokens n) (l : Level) :
    (l.parser expr).Explains tokens (n + 1) := by
  induction l using Level.fromTightest with
  | atom => exact explains_atom explains
  | signed _ => exact explains_signed explains
  | level l notSigned notAtom inductionHypothesis =>
    exact explains_level notSigned notAtom inductionHypothesis

/-- Where fewer tokens are left than the parser is deep, the failure of an expression is
explained. -/
theorem explains_expr (depth : Nat) : (Grammar.expr depth).Explains tokens depth := by
  induction depth with
  | zero => exact fun _ _ short => absurd short (Nat.not_lt_zero _)
  | succ depth inductionHypothesis => exact explains_parserAt inductionHypothesis .disjunction

end Expressions

section Statements

variable {expr : Parser Expr} {block : Parser Stmt}

theorem explains_ident : ident.Explains tokens n := .accept _ _

theorem explains_keyword (word : Keyword) : (keyword word).Explains tokens n := .accept _ _

theorem explains_eitherWord {α : Type} (one other : Keyword) (a b : α) :
    (choice [word one a, word other b]).Explains tokens n :=
  .orElse ((explains_keyword one).bind fun _ => .pure a)
    ((explains_keyword other).bind fun _ => .pure b)

theorem explains_bound (exprs : expr.Explains tokens n) : (bound expr).Explains tokens n :=
  Explains.between _ _ <| exprs.bind fun _ => (Explains.symbol _).bind fun _ =>
    exprs.bind fun _ => .pure _

theorem explains_stmt (exprs : expr.Explains tokens n) (blocks : block.Explains tokens n) :
    (stmt expr block).Explains tokens n := by
  have letStmt : (letStmt expr block).Explains tokens n :=
    (explains_keyword _).bind fun _ => explains_ident.bind fun _ =>
      (Explains.symbol _).bind fun _ => exprs.bind fun _ => blocks.bind fun _ => .pure _
  have forStmt : (forStmt expr block).Explains tokens n :=
    (explains_keyword _).bind fun _ => Explains.bind (Explains.between _ _ <|
      explains_ident.bind fun _ => (Explains.symbol _).bind fun _ => exprs.bind fun _ =>
        (Explains.symbol _).bind fun _ => exprs.bind fun _ => .pure _) fun _ =>
      blocks.bind fun _ => .pure _
  have ifStmt : (ifStmt expr block).Explains tokens n :=
    (explains_keyword _).bind fun _ => (exprs.between _ _).bind fun _ => blocks.bind fun _ =>
      Explains.bind (Explains.optional ((explains_keyword _).bind fun _ => blocks)) fun _ => .pure _
  have allocateStmt : (allocateStmt expr block).Explains tokens n :=
    (explains_keyword _).bind fun _ => explains_ident.bind fun _ => explains_angleType.bind fun _ =>
      (exprs.commaRow.between _ _).bind fun _ => blocks.bind fun _ => .pure _
  have freeStmt : freeStmt.Explains tokens n :=
    (explains_keyword _).bind fun _ => explains_ident.bind fun _ =>
      (Explains.symbol _).bind fun _ => .pure _
  have realizeStmt : (realizeStmt expr block).Explains tokens n :=
    (explains_keyword _).bind fun _ => explains_ident.bind fun _ => explains_angleType.bind fun _ =>
      ((explains_bound exprs).commaRow.between _ _).bind fun _ => blocks.bind fun _ => .pure _
  have produceStmt : (produceStmt block).Explains tokens n :=
    (explains_eitherWord _ _ _ _).bind fun _ => explains_ident.bind fun _ =>
      blocks.bind fun _ => .pure _
  have assertStmt : (assertStmt expr).Explains tokens n :=
    (explains_keyword _).bind fun _ => Explains.bind (Explains.between _ _ <|
      exprs.bind fun _ => (Explains.symbol _).bind fun _ => (Explains.accept _ _).bind fun _ =>
        .pure _) fun _ => (Explains.symbol _).bind fun _ => .pure _
  have storeStmt : (storeStmt expr).Explains tokens n :=
    explains_ident.bind fun _ => (exprs.between _ _).bind fun _ => (Explains.symbol _).bind fun _ =>
      exprs.bind fun _ => (Explains.symbol _).bind fun _ => .pure _
  have provideStmt : (provideStmt expr).Explains tokens n :=
    explains_ident.bind fun _ => (explains_arguments exprs).bind fun _ =>
      (Explains.symbol _).bind fun _ => exprs.bind fun _ =>
        (Explains.symbol _).bind fun _ => .pure _
  have evaluateStmt : (evaluateStmt expr).Explains tokens n :=
    exprs.bind fun _ => (Explains.symbol _).bind fun _ => .pure _
  apply Explains.choice (List.cons_ne_nil _ _)
  simp only [List.forall_mem_cons]
  exact ⟨letStmt, forStmt, ifStmt, allocateStmt, freeStmt, realizeStmt, produceStmt, assertStmt,
    storeStmt, provideStmt, evaluateStmt, List.forall_mem_nil _⟩

theorem explains_semicolons : semicolons.Explains tokens n :=
  (Explains.symbol _).many.bind fun _ => .pure _

theorem explains_block {depth : Nat} (exprs : expr.Explains tokens depth) :
    (Grammar.block expr depth).Explains tokens depth := by
  induction depth with
  | zero => exact fun _ _ short => absurd short (Nat.not_lt_zero _)
  | succ depth inductionHypothesis =>
    have inside := exprs.mono (Nat.le_succ depth)
    have item := (explains_stmt inside (inductionHypothesis inside)).bind fun first =>
      explains_semicolons.bind fun _ => .pure first
    exact Explains.bind (Explains.enclosed _ _ <| explains_semicolons.bind fun _ => item.many)
      fun _ => .pure _

theorem explains_param : param.Explains tokens n :=
  (explains_eitherWord _ _ _ _).bind fun _ => explains_ident.bind fun _ =>
    (Explains.symbol _).bind fun _ => explains_typeWord.bind fun _ => .pure _

theorem explains_program (depth : Nat) : (program depth).Explains tokens depth := by
  have explains_pipeline : (pipeline depth).Explains tokens depth :=
    (explains_keyword _).bind fun _ => explains_ident.bind fun _ =>
      (explains_param.commaRowTrailing.between _ _).bind fun _ =>
        (explains_block (explains_expr depth)).bind fun _ => .pure _
  exact explains_pipeline.bind fun _ => Explains.atEnd.bind fun _ => .pure _

end Statements

end Grammar

section Report

/-- When the tokens form no pipeline, a located miss is remembered at the end. -/
theorem exists_miss (tokens : Input) (failed : (Grammar.parseTokens tokens).result = none) :
    ∃ miss, (Grammar.parseTokens tokens).note none = some miss ∧ Located tokens (some miss) := by
  have explained : (Grammar.parseTokens tokens).Explained tokens tokens :=
    Grammar.explains_program _ List.suffix_rfl (Nat.lt_succ_self _)
  obtain ⟨miss, isMiss⟩ := Option.isSome_iff_exists.mp (explained.reports (m := none) (.inl failed))
  have located := explained.located (located_none tokens)
  rw [isMiss] at located
  exact ⟨miss, isMiss, located⟩

/-- The report of an invalid piece of text, at the place of the piece and with its text quoted. -/
def LexError.report (e : LexError) : SyntaxError :=
  ⟨e.span, "unexpected character: " ++ quoted (String.ofList e.text)⟩

theorem parse_errors_of_isSome {source : String} (parsed : (parse source).pipeline.isSome = true) :
    (parse source).errors = (lex source).errors.map LexError.report := by
  unfold parse at parsed ⊢
  dsimp only at parsed ⊢
  split at parsed
  · rfl
  · cases parsed

theorem parse_errors_of_none {source : String} (failed : (parse source).pipeline = none) :
    ∃ e, (parse source).errors = (lex source).errors.map LexError.report ++ [e] ∧
      (e.span.OverTokens (lex source).tokens ∨
        e.span = ⟨source.utf8ByteSize, source.utf8ByteSize⟩) := by
  unfold parse at failed ⊢
  dsimp only at failed ⊢
  split at failed
  · cases failed
  · next isNone =>
    obtain ⟨miss, isMiss, located⟩ := exists_miss _ isNone
    rw [isMiss]
    refine ⟨Grammar.missError source.utf8ByteSize miss, rfl, ?_⟩
    cases isSpan : miss.span with
    | none => exact .inr (by simp [Grammar.missError, isSpan])
    | some span =>
      have overTokens := located miss rfl span isSpan
      exact .inl (by simpa [Grammar.missError, isSpan] using overTokens)

theorem SyntaxError.diagnostic_ne_noOutput (e : SyntaxError) : e.diagnostic ≠ .noOutput := by
  intro same
  have noSpan := congrArg Diagnostic.span same
  cases noSpan

theorem Diagnostic.ofError_ne_noOutput (e : LoweringError) : Diagnostic.ofError e ≠ .noOutput := by
  intro same
  have sameCode := congrArg Diagnostic.code same
  cases e <;> simp [ofError, noOutput, LoweringError.code, syntaxCode] at sameCode

/-- Every failure to parse is reported once, behind the errors of the lexer, and at a place of the
source; so a compilation never falls back on its last resort. -/
theorem parse_failure_reported (source : String) :
    ((parse source).pipeline.isSome = true →
        (parse source).errors = (lex source).errors.map LexError.report) ∧
      ((parse source).pipeline = none →
        ∃ e, (parse source).errors = (lex source).errors.map LexError.report ++ [e] ∧
          (e.span.OverTokens (lex source).tokens ∨
            e.span = ⟨source.utf8ByteSize, source.utf8ByteSize⟩)) ∧
      ∀ config phase diagnostics,
        compile config source = .error (.reported phase diagnostics) →
          .noOutput ∉ diagnostics := by
  refine ⟨parse_errors_of_isSome, parse_errors_of_none, ?_⟩
  intro config phase diagnostics isReport fallsBack
  simp only [compile] at isReport
  split at isReport
  · split at isReport
    · cases isReport
    · next e _ =>
      cases isReport
      exact Diagnostic.ofError_ne_noOutput e (List.mem_singleton.mp fallsBack).symm
    · cases isReport
  · next notClean =>
    cases isReport
    have hasErrors : (parse source).errors ≠ [] := by
      intro noErrors
      cases isPipeline : (parse source).pipeline with
      | some pipeline => exact notClean pipeline isPipeline noErrors
      | none =>
        obtain ⟨e, isErrors, _⟩ := parse_errors_of_none isPipeline
        rw [noErrors] at isErrors
        simp at isErrors
    rw [Parsed.diagnostics, if_neg (by simpa using hasErrors)] at fallsBack
    obtain ⟨e, _, isLast⟩ := List.mem_map.mp fallsBack
    exact e.diagnostic_ne_noOutput isLast

/-- A piece that is no token, and a list of parameters that is not closed. -/
theorem parse_failure_reported_openParameters :
    (parse "func $ f(").pipeline = none ∧
      ∃ e, (parse "func $ f(").errors = [⟨⟨5, 6⟩, "unexpected character: \"$\""⟩, e] ∧
        (e.span.OverTokens (lex "func $ f(").tokens ∨ e.span = ⟨9, 9⟩) := by
  have isNone : (parse "func $ f(").pipeline = none := by
    rw [← Option.isNone_iff_eq_none]
    decide +kernel
  have invalid : (lex "func $ f(").errors = [⟨⟨5, 6⟩, ['$']⟩] := by decide +kernel
  have report : LexError.report ⟨⟨5, 6⟩, ['$']⟩ =
      ⟨⟨5, 6⟩, "unexpected character: \"$\""⟩ := by decide +kernel
  obtain ⟨e, areErrors, isPlaced⟩ := (parse_failure_reported "func $ f(").2.1 isNone
  rw [invalid, List.map_singleton, report] at areErrors
  exact ⟨isNone, e, areErrors, isPlaced⟩

end Report

end StreamSynth
