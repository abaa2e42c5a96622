import StreamSynth.Proofs.ExprParsing
import StreamSynth.Proofs.PipelineLanguage

/-!
# Parsing pipelines

The parser of pipelines accepts exactly the pipelines of the grammar, each with the value that
the grammar gives it.
-/

namespace StreamSynth.Grammar

open StreamSynth.Parser

section Soundness

variable {expr : Parser Expr} {block : Parser Stmt} {Block : List Token → Stmt → Prop}

theorem sound_letStmt (sound : expr.Sound IsExpr) (soundBlock : block.Sound Block) :
    (letStmt expr block).Sound (IsStmt Block) := by
  intro input s rest reads
  simp only [letStmt, keyword, symbol, reads_bind, reads_exactly, reads_ident, reads_pure] at reads
  obtain ⟨_, _, ⟨_, rfl⟩, name, _, ⟨_, rfl⟩, _, _, ⟨_, rfl⟩, value, _, readsValue, body, _,
    readsBody, rfl, rfl⟩ := reads
  obtain ⟨_, splitValue, derived⟩ := sound readsValue
  obtain ⟨_, splitBody, isBlock⟩ := soundBlock readsBody
  exact ⟨_, by simp [splitValue, splitBody], .letIn derived isBlock⟩

theorem sound_forStmt (sound : expr.Sound IsExpr) (soundBlock : block.Sound Block) :
    (forStmt expr block).Sound (IsStmt Block) := by
  intro input s rest reads
  simp only [forStmt, parenthesized, between, keyword, symbol, reads_bind, reads_exactly,
    reads_ident, reads_pure] at reads
  obtain ⟨_, _, ⟨_, rfl⟩, _, _, ⟨_, _, ⟨_, rfl⟩, _, _, ⟨name, _, ⟨_, rfl⟩, _, _, ⟨_, rfl⟩, min, _,
    readsMin, _, _, ⟨_, rfl⟩, extent, _, readsExtent, rfl, rfl⟩, _, _, ⟨_, rfl⟩, rfl, rfl⟩, body,
    _, readsBody, rfl, rfl⟩ := reads
  obtain ⟨_, splitMin, minDerived⟩ := sound readsMin
  obtain ⟨_, splitExtent, extentDerived⟩ := sound readsExtent
  obtain ⟨_, splitBody, isBlock⟩ := soundBlock readsBody
  refine ⟨_, ?_, .loop minDerived extentDerived isBlock⟩
  simp_all [inParens]

theorem sound_ifStmt (sound : expr.Sound IsExpr) (soundBlock : block.Sound Block) :
    (ifStmt expr block).Sound (IsStmt Block) := by
  intro input s rest reads
  simp only [ifStmt, keyword, reads_bind, reads_exactly, reads_pure] at reads
  obtain ⟨_, _, ⟨_, rfl⟩, condition, _, readsCondition, thenCase, _, readsThen, elseCase, _,
    readsElse, rfl, rfl⟩ := reads
  obtain ⟨_, splitCondition, _, rfl, derived⟩ := sound.between readsCondition
  obtain ⟨_, splitThen, isThen⟩ := soundBlock readsThen
  rcases reads_optional readsElse with ⟨stmt, rfl, readsStmt⟩ | ⟨rfl, rfl⟩
  · simp only [reads_bind, reads_exactly] at readsStmt
    obtain ⟨_, _, ⟨_, rfl⟩, readsStmt⟩ := readsStmt
    obtain ⟨_, splitStmt, isElse⟩ := soundBlock readsStmt
    refine ⟨_, ?_, .ifThenElse derived isThen isElse⟩
    simp_all [inParens]
  · refine ⟨_, ?_, .ifThen derived isThen⟩
    simp_all [inParens]

theorem sound_allocateStmt (sound : expr.Sound IsExpr) (soundBlock : block.Sound Block) :
    (allocateStmt expr block).Sound (IsStmt Block) := by
  intro input s rest reads
  simp only [allocateStmt, keyword, reads_bind, reads_exactly, reads_ident, reads_pure] at reads
  obtain ⟨_, _, ⟨_, rfl⟩, name, _, ⟨_, rfl⟩, type, _, readsType, extents, _, readsExtents, body, _,
    readsBody, rfl, rfl⟩ := reads
  obtain ⟨word, splitType, known⟩ := reads_angleType readsType
  obtain ⟨_, splitExtents, _, rfl, pieces, nonempty, derived, rfl, rfl⟩ :=
    (Sound.commaRow sound).between readsExtents
  obtain ⟨_, splitBody, isBlock⟩ := soundBlock readsBody
  exact ⟨_, by simp [splitType, splitExtents, splitBody, inBrackets],
    .allocate known nonempty derived isBlock⟩

theorem sound_freeStmt : freeStmt.Sound (IsStmt Block) := by
  intro input s rest reads
  simp only [freeStmt, keyword, symbol, reads_bind, reads_exactly, reads_ident, reads_pure] at reads
  obtain ⟨_, _, ⟨_, rfl⟩, name, _, ⟨_, rfl⟩, _, _, ⟨_, rfl⟩, rfl, rfl⟩ := reads
  exact ⟨_, rfl, .free⟩

theorem sound_bound (sound : expr.Sound IsExpr) : (bound expr).Sound IsBound := by
  intro input b rest reads
  simp only [bound, between, symbol, reads_bind, reads_exactly, reads_pure] at reads
  obtain ⟨_, _, ⟨_, rfl⟩, _, _, ⟨min, _, readsMin, _, _, ⟨_, rfl⟩, extent, _, readsExtent, rfl,
    rfl⟩, _, _, ⟨_, rfl⟩, rfl, rfl⟩ := reads
  obtain ⟨_, splitMin, minDerived⟩ := sound readsMin
  obtain ⟨_, splitExtent, extentDerived⟩ := sound readsExtent
  refine ⟨_, ?_, .mk minDerived extentDerived⟩
  simp_all [inBrackets]

theorem sound_realizeStmt (sound : expr.Sound IsExpr) (soundBlock : block.Sound Block) :
    (realizeStmt expr block).Sound (IsStmt Block) := by
  intro input s rest reads
  simp only [realizeStmt, keyword, reads_bind, reads_exactly, reads_ident, reads_pure] at reads
  obtain ⟨_, _, ⟨_, rfl⟩, name, _, ⟨_, rfl⟩, type, _, readsType, bounds, _, readsBounds, body, _,
    readsBody, rfl, rfl⟩ := reads
  obtain ⟨word, splitType, known⟩ := reads_angleType readsType
  obtain ⟨_, splitBounds, _, rfl, pieces, nonempty, derived, rfl, rfl⟩ :=
    (Sound.commaRow (sound_bound sound)).between readsBounds
  obtain ⟨_, splitBody, isBlock⟩ := soundBlock readsBody
  exact ⟨_, by simp [splitType, splitBounds, splitBody, inParens],
    .realize known nonempty derived isBlock⟩

theorem sound_produceStmt (soundBlock : block.Sound Block) :
    (produceStmt block).Sound (IsStmt Block) := by
  intro input s rest reads
  simp only [produceStmt, reads_bind, reads_ident, reads_pure] at reads
  obtain ⟨make, _, readsMake, name, _, ⟨_, rfl⟩, body, _, readsBody, rfl, rfl⟩ := reads
  obtain ⟨_, splitBody, isBlock⟩ := soundBlock readsBody
  obtain ⟨_, splitMake, t, inTable, rfl⟩ :=
    Sound.oneOf [(.keyword .produce, Stmt.produce), (.keyword .consume, Stmt.consume)] readsMake
  simp only [List.mem_cons, Prod.mk.injEq, List.not_mem_nil, or_false] at inTable
  rcases inTable with ⟨rfl, rfl⟩ | ⟨rfl, rfl⟩
  · exact ⟨_, by simp [splitMake, splitBody], .produce isBlock⟩
  · exact ⟨_, by simp [splitMake, splitBody], .consume isBlock⟩

theorem sound_assertStmt (sound : expr.Sound IsExpr) : (assertStmt expr).Sound (IsStmt Block) := by
  intro input s rest reads
  simp only [assertStmt, parenthesized, between, keyword, symbol, reads_bind, reads_exactly,
    reads_accept, reads_pure] at reads
  obtain ⟨_, _, ⟨_, rfl⟩, _, _, ⟨_, _, ⟨_, rfl⟩, _, _, ⟨condition, _, readsCondition, _, _,
    ⟨_, rfl⟩, message, _, ⟨token, _, rfl, accepted⟩, rfl, rfl⟩, _, _, ⟨_, rfl⟩, rfl, rfl⟩, _, _,
    ⟨_, rfl⟩, rfl, rfl⟩ := reads
  obtain ⟨_, splitCondition, derived⟩ := sound readsCondition
  cases token <;> cases accepted
  refine ⟨_, ?_, .assert derived⟩
  simp_all [inParens]

theorem sound_storeStmt (sound : expr.Sound IsExpr) : (storeStmt expr).Sound (IsStmt Block) := by
  intro input s rest reads
  simp only [storeStmt, symbol, reads_bind, reads_exactly, reads_ident, reads_pure] at reads
  obtain ⟨name, _, ⟨_, rfl⟩, index, _, readsIndex, _, _, ⟨_, rfl⟩, value, _, readsValue, _, _,
    ⟨_, rfl⟩, rfl, rfl⟩ := reads
  obtain ⟨_, splitIndex, _, rfl, indexDerived⟩ := sound.between readsIndex
  obtain ⟨_, splitValue, valueDerived⟩ := sound readsValue
  refine ⟨_, ?_, .store indexDerived valueDerived⟩
  simp_all [inBrackets]

theorem sound_provideStmt (sound : expr.Sound IsExpr) :
    (provideStmt expr).Sound (IsStmt Block) := by
  intro input s rest reads
  simp only [provideStmt, symbol, reads_bind, reads_exactly, reads_ident, reads_pure] at reads
  obtain ⟨name, _, ⟨_, rfl⟩, args, _, readsArgs, _, _, ⟨_, rfl⟩, value, _, readsValue, _, _,
    ⟨_, rfl⟩, rfl, rfl⟩ := reads
  obtain ⟨_, splitArgs, pieces, inner, derived, listed, rfl, rfl⟩ :=
    sound_arguments sound readsArgs
  obtain ⟨_, splitValue, valueDerived⟩ := sound readsValue
  refine ⟨_, ?_, .provide derived listed valueDerived⟩
  simp_all

theorem sound_evaluateStmt (sound : expr.Sound IsExpr) :
    (evaluateStmt expr).Sound (IsStmt Block) := by
  intro input s rest reads
  simp only [evaluateStmt, symbol, reads_bind, reads_exactly, reads_pure] at reads
  obtain ⟨value, _, readsValue, _, _, ⟨_, rfl⟩, rfl, rfl⟩ := reads
  obtain ⟨_, splitValue, derived⟩ := sound readsValue
  exact ⟨_, by simp [splitValue], .evaluate derived⟩

theorem sound_stmt (sound : expr.Sound IsExpr) (soundBlock : block.Sound Block) :
    (stmt expr block).Sound (IsStmt Block) := by
  apply Sound.choice
  simp only [List.forall_mem_cons]
  exact ⟨sound_letStmt sound soundBlock, sound_forStmt sound soundBlock,
    sound_ifStmt sound soundBlock, sound_allocateStmt sound soundBlock, sound_freeStmt,
    sound_realizeStmt sound soundBlock, sound_produceStmt soundBlock, sound_assertStmt sound,
    sound_storeStmt sound, sound_provideStmt sound, sound_evaluateStmt sound,
    List.forall_mem_nil _⟩

theorem sound_semicolons : semicolons.Sound fun ts _ =>
    ∃ count, ts = List.replicate count (.symbol .semicolon) := by
  intro input u rest reads
  simp only [semicolons, symbol, reads_bind, reads_pure] at reads
  obtain ⟨_, _, readsMany, _, rfl⟩ := reads
  obtain ⟨_, split, pieces, phrases, rfl, rfl⟩ := (Sound.exactly _).many readsMany
  refine ⟨_, split, (pieces.map Piece.value).length, ?_⟩
  rw [Piece.flatMap_tokens_eq_map (fun _ => .symbol .semicolon) phrases, List.map_const']

theorem sound_item (sound : expr.Sound IsExpr) (soundBlock : block.Sound Block) : (do
    let first ← stmt expr block
    semicolons
    return first : Parser Stmt).Sound (IsItem Block) := by
  intro input s rest reads
  simp only [reads_bind, reads_pure] at reads
  obtain ⟨first, _, readsFirst, _, _, readsSemicolons, rfl, rfl⟩ := reads
  obtain ⟨_, splitFirst, isStmt⟩ := sound_stmt sound soundBlock readsFirst
  obtain ⟨_, splitSemicolons, count, rfl⟩ := sound_semicolons readsSemicolons
  exact ⟨_, by simp [splitFirst, splitSemicolons], .mk count isStmt⟩

theorem sound_block (sound : expr.Sound IsExpr) (depth : Nat) :
    (Grammar.block expr depth).Sound IsBlock := by
  induction depth with
  | zero =>
    intro input s rest reads
    cases reads
  | succ depth inductionHypothesis =>
    intro input s rest reads
    simp only [Grammar.block, between, symbol, reads_bind, reads_exactly, reads_pure] at reads
    obtain ⟨stmts, _, ⟨_, _, ⟨_, rfl⟩, _, _, ⟨_, _, readsSemicolons, readsItems⟩, _, _, ⟨_, rfl⟩,
      rfl, rfl⟩, rfl, rfl⟩ := reads
    obtain ⟨_, splitSemicolons, count, rfl⟩ := sound_semicolons readsSemicolons
    obtain ⟨_, splitItems, items, areItems, rfl, rfl⟩ :=
      (sound_item sound inductionHypothesis).many readsItems
    refine ⟨_, ?_, .mk count areItems (isSequence_iff.mpr rfl)⟩
    simp_all [inBraces]

theorem sound_param : param.Sound IsParam := by
  intro input p rest reads
  simp only [param, symbol, reads_bind, reads_exactly, reads_ident, reads_typeWord,
    reads_pure] at reads
  obtain ⟨kind, _, readsKind, name, _, ⟨_, rfl⟩, _, _, ⟨_, rfl⟩, type, _, ⟨word, _, rfl, known⟩,
    rfl, rfl⟩ := reads
  obtain ⟨_, split, t, inTable, rfl⟩ :=
    Sound.oneOf [(.keyword .buffer, ParamKind.buffer), (.keyword .scalar, ParamKind.scalar)]
      readsKind
  simp only [List.mem_cons, Prod.mk.injEq, List.not_mem_nil, or_false] at inTable
  rcases inTable with ⟨rfl, rfl⟩ | ⟨rfl, rfl⟩
  · exact ⟨_, split, .buffer known⟩
  · exact ⟨_, split, .scalar known⟩

theorem sound_pipeline (depth : Nat) : (pipeline depth).Sound IsPipeline := by
  intro input p rest reads
  simp only [pipeline, keyword, reads_bind, reads_exactly, reads_ident, reads_pure] at reads
  obtain ⟨_, _, ⟨_, rfl⟩, name, _, ⟨_, rfl⟩, params, _, readsParams, body, _, readsBody, rfl,
    rfl⟩ := reads
  obtain ⟨_, splitParams, _, rfl, pieces, areParams, listed, rfl⟩ :=
    (Sound.commaRowTrailing sound_param).between readsParams
  obtain ⟨_, splitBody, isBlock⟩ := sound_block (sound_expr depth) depth readsBody
  exact ⟨_, by simp [splitParams, splitBody, inParens], .mk areParams listed isBlock⟩

end Soundness

section KeywordForms

variable {expr : Parser Expr} {block : Parser Stmt}

def keywordForms (expr : Parser Expr) (block : Parser Stmt) : List (List Keyword × Parser Stmt) :=
  [([.letIn], letStmt expr block), ([.forLoop], forStmt expr block),
    ([.ifThen], ifStmt expr block), ([.allocate], allocateStmt expr block), ([.free], freeStmt),
    ([.realize], realizeStmt expr block), ([.produce, .consume], produceStmt block),
    ([.assert], assertStmt expr)]

theorem stmt_eq_choice (expr : Parser Expr) (block : Parser Stmt) :
    stmt expr block = choice ((keywordForms expr block).map Prod.snd ++
      [storeStmt expr, provideStmt expr, evaluateStmt expr]) := rfl

theorem refuses_keywordForm {form : List Keyword × Parser Stmt}
    (membership : form ∈ keywordForms expr block) {us : List Token}
    (noKeyword : ∀ k ∈ form.1, us.head? ≠ some (.keyword k)) : form.2.Refuses us := by
  simp only [keywordForms, List.mem_cons, List.not_mem_nil, or_false] at membership
  rcases membership with rfl | rfl | rfl | rfl | rfl | rfl | rfl | rfl
  case inr.inr.inr.inr.inr.inr.inl =>
    have differs : ∀ t ∈ [(Token.keyword .produce, Stmt.produce),
        (.keyword .consume, Stmt.consume)].map Prod.fst, us.head? ≠ some t := by
      simpa using noKeyword
    exact (refuses_oneOf differs).bind _
  all_goals exact (refuses_exactly (noKeyword _ (by simp))).bind _

/-- The keyword that a statement starts with tells its form. -/
theorem takes_keywordForm (keywords : List Keyword) {p : Parser Stmt}
    (membership : (keywords, p) ∈ keywordForms expr block) {k : Keyword} (leads : k ∈ keywords)
    {ts us : List Token} {s : Stmt} (takes : p.Takes (.keyword k :: ts) s us) :
    (stmt expr block).Takes (.keyword k :: ts) s us := by
  have distinct : ((keywordForms expr block).flatMap Prod.fst).Nodup := by
    simp [keywordForms]
  obtain ⟨before, after, split⟩ := List.append_of_mem membership
  rw [stmt_eq_choice, split, List.map_append, List.map_cons, List.append_assoc, List.cons_append]
  apply Takes.choice takes
  intro q isBefore
  obtain ⟨earlier, isEarlier, rfl⟩ := List.mem_map.mp isBefore
  have membershipEarlier : earlier ∈ keywordForms expr block := by
    rw [split]
    exact List.mem_append_left _ isEarlier
  apply refuses_keywordForm membershipEarlier
  rintro k' leadsEarlier ⟨⟩
  rw [split, List.flatMap_append, List.nodup_append] at distinct
  exact distinct.2.2 k (List.mem_flatMap.mpr ⟨earlier, isEarlier, leadsEarlier⟩) k
    (List.mem_flatMap.mpr ⟨(keywords, p), by simp, leads⟩) rfl

/-- A statement that starts as an expression does is none of the forms with a keyword. -/
theorem takes_plainForm {before after : List (Parser Stmt)} {p : Parser Stmt}
    (split : [storeStmt expr, provideStmt expr, evaluateStmt expr] = before ++ p :: after)
    {t : Token} (starts : startsExpr t = true) {ts us : List Token} {s : Stmt}
    (takes : p.Takes (t :: ts) s us) (refuses : ∀ q ∈ before, q.Refuses (t :: ts ++ us)) :
    (stmt expr block).Takes (t :: ts) s us := by
  rw [stmt_eq_choice, split, ← List.append_assoc]
  apply Takes.choice takes
  refine List.forall_mem_append.mpr ⟨?_, refuses⟩
  intro q membership
  obtain ⟨form, isForm, rfl⟩ := List.mem_map.mp membership
  apply refuses_keywordForm isForm
  rintro k leads ⟨⟩
  have isLeading : k ∈ (keywordForms expr block).flatMap Prod.fst :=
    List.mem_flatMap.mpr ⟨form, isForm, leads⟩
  cases k with
  | cast => simp [keywordForms] at isLeading
  | load => simp [keywordForms] at isLeading
  | _ => cases starts

end KeywordForms

section Completeness

structure CompleteBelow (n : Nat) (expr : Parser Expr) (block : Parser Stmt) : Prop where
  sound : expr.Sound IsExpr
  expr ⦃ts : List Token⦄ ⦃e : Expr⦄ ⦃us : List Token⦄ : ts.length < n → IsExpr ts e →
    Level.disjunction.EndsAt us → expr.Takes ts e us
  block ⦃ts : List Token⦄ ⦃s : Stmt⦄ (us : List Token) : ts.length < n → IsBlock ts s →
    block.Takes ts s us

theorem IsBlock.endsAt {ts : List Token} {s : Stmt} (isBlock : IsBlock ts s) (us : List Token) :
    Level.disjunction.EndsAt (ts ++ us) := by
  cases isBlock
  exact Level.endsAt_symbol (by decide) _

variable {n : Nat} {expr : Parser Expr} {block : Parser Stmt} {us body : List Token} {s : Stmt}
  (complete : CompleteBelow n expr block)

include complete

theorem takes_letStmt {name : String} {value : List Token} {a : Expr}
    (short : (value ++ body).length < n) (derived : IsExpr value a) (isBlock : IsBlock body s) :
    (letStmt expr block).Takes
      (.keyword .letIn :: .ident name :: .symbol .assign :: (value ++ body)) (.letIn name a s)
      us := by
  rw [List.length_append] at short
  apply Takes.exactly_bind
  apply takes_ident_bind
  apply Takes.exactly_bind
  apply Takes.bind (complete.expr (by omega) derived (isBlock.endsAt us))
  exact (complete.block us (by omega) isBlock).last rfl

theorem takes_forStmt {name : String} {min extent : List Token} {a b : Expr}
    (short : (min ++ (extent ++ body)).length < n) (minDerived : IsExpr min a)
    (extentDerived : IsExpr extent b) (isBlock : IsBlock body s) :
    (forStmt expr block).Takes (.keyword .forLoop :: (inParens (.ident name :: .symbol .comma ::
      (min ++ .symbol .comma :: extent)) ++ body)) (.loop name a b s) us := by
  simp only [List.length_append] at short
  have ends : ∀ us, Level.disjunction.EndsAt (.symbol .comma :: us) :=
    Level.endsAt_symbol (by decide)
  apply Takes.exactly_bind
  apply Takes.bind (a := (name, a, b))
  · apply Takes.between
    apply takes_ident_bind
    apply Takes.exactly_bind
    apply Takes.bind (complete.expr (by omega) minDerived (ends _))
    apply Takes.exactly_bind
    exact (complete.expr (by omega) extentDerived (Level.endsAt_symbol (by decide) _)).last rfl
  · exact (complete.block us (by omega) isBlock).last rfl

theorem takes_ifStmt {condition : List Token} {a : Expr} (short : (condition ++ body).length < n)
    (derived : IsExpr condition a) (isBlock : IsBlock body s)
    (noElse : us.head? ≠ some (.keyword .orElse)) :
    (ifStmt expr block).Takes (.keyword .ifThen :: (inParens condition ++ body)) (.ifThen a s)
      us := by
  rw [List.length_append] at short
  have ends : ∀ us, Level.disjunction.EndsAt us → expr.Takes condition a us := fun _ =>
    complete.expr (by omega) derived
  apply Takes.exactly_bind
  apply Takes.bind (takes_parenthesized ends _)
  apply Takes.bind_nil (complete.block us (by omega) isBlock)
  exact (Refuses.optional ((refuses_exactly noElse).bind _)).last rfl

theorem takes_ifElseStmt {condition other : List Token} {a : Expr} {t : Stmt}
    (short : (condition ++ (body ++ other)).length < n) (derived : IsExpr condition a)
    (isBlock : IsBlock body s) (isOther : IsBlock other t) :
    (ifStmt expr block).Takes
      (.keyword .ifThen :: (inParens condition ++ (body ++ .keyword .orElse :: other)))
      (.ifThenElse a s t) us := by
  simp only [List.length_append] at short
  have ends : ∀ us, Level.disjunction.EndsAt us → expr.Takes condition a us := fun _ =>
    complete.expr (by omega) derived
  have takesOther : (do
      keyword .orElse
      block : Parser Stmt).Takes (.keyword .orElse :: other) t us :=
    (complete.block us (by omega) isOther).exactly_bind
  apply Takes.exactly_bind
  apply Takes.bind (takes_parenthesized ends _)
  apply Takes.bind (complete.block _ (by omega) isBlock)
  exact takesOther.optional.last rfl

theorem takes_allocateStmt {name word : String} {type : ScalarType} {extents : List (Piece Expr)}
    (short : (Piece.row extents ++ body).length < n)
    (known : ScalarType.ofKeyword? word = some type) (nonempty : extents ≠ [])
    (derived : ∀ extent ∈ extents, IsExpr extent.tokens extent.value) (isBlock : IsBlock body s) :
    (allocateStmt expr block).Takes (.keyword .allocate :: .ident name ::
      (angled word ++ (inBrackets (Piece.row extents) ++ body)))
      (.allocate name type (extents.map Piece.value) s) us := by
  rw [List.length_append] at short
  have takesExtents : ∀ extent ∈ extents, ∀ us, Level.disjunction.EndsAt us →
      expr.Takes extent.tokens extent.value us := by
    intro extent membership us ends
    have inRow := Piece.length_le_row membership
    exact complete.expr (by omega) (derived extent membership) ends
  have takesRow : ∀ us, (between .leftBracket .rightBracket (commaRow expr)).Takes
      (inBrackets (Piece.row extents)) (extents.map Piece.value) us := by
    intro us
    apply Takes.between
    apply Takes.commaRow takesExtents
    · exact Level.endsAt_symbol (by decide)
    · exact nonempty
    · exact Level.endsAt_symbol (by decide) _
    · simp
  apply Takes.exactly_bind
  apply takes_ident_bind
  apply Takes.bind (takes_angleType known _)
  apply Takes.bind (takesRow _)
  exact (complete.block us (by omega) isBlock).last rfl

omit complete in
theorem takes_freeStmt {name : String} :
    freeStmt.Takes [.keyword .free, .ident name, .symbol .semicolon] (.free name) us := by
  apply Takes.exactly_bind
  apply takes_ident_bind
  exact (Takes.exactly _ _).last rfl

theorem takes_bound {ts : List Token} {b : Bound} (short : ts.length < n) (isBound : IsBound ts b)
    (us : List Token) : (bound expr).Takes ts b us := by
  cases isBound with
  | @mk min a extent b minDerived extentDerived =>
    simp only [inBrackets, List.length_cons, List.length_append] at short
    apply Takes.between
    apply Takes.bind (complete.expr (by omega) minDerived (Level.endsAt_symbol (by decide) _))
    apply Takes.exactly_bind
    exact (complete.expr (by omega) extentDerived (Level.endsAt_symbol (by decide) _)).last rfl

theorem takes_realizeStmt {name word : String} {type : ScalarType} {bounds : List (Piece Bound)}
    (short : (Piece.row bounds ++ body).length < n)
    (known : ScalarType.ofKeyword? word = some type) (nonempty : bounds ≠ [])
    (areBounds : ∀ bound ∈ bounds, IsBound bound.tokens bound.value) (isBlock : IsBlock body s) :
    (realizeStmt expr block).Takes (.keyword .realize :: .ident name ::
      (angled word ++ (inParens (Piece.row bounds) ++ body)))
      (.realize name type (bounds.map Piece.value) s) us := by
  rw [List.length_append] at short
  have takesBounds : ∀ b ∈ bounds, ∀ us, True → (bound expr).Takes b.tokens b.value us := by
    intro b membership us _
    have inRow := Piece.length_le_row membership
    exact takes_bound complete (by omega) (areBounds b membership) us
  have takesRow : ∀ us, (parenthesized (commaRow (bound expr))).Takes
      (inParens (Piece.row bounds)) (bounds.map Piece.value) us := by
    intro us
    apply Takes.between
    apply Takes.commaRow takesBounds
    · exact fun _ => trivial
    · exact nonempty
    · trivial
    · simp
  apply Takes.exactly_bind
  apply takes_ident_bind
  apply Takes.bind (takes_angleType known _)
  apply Takes.bind (takesRow _)
  exact (complete.block us (by omega) isBlock).last rfl

theorem takes_produceStmt {t : Token} {make : String → Stmt → Stmt} {name : String}
    (isWord : (t, make) ∈ [(.keyword .produce, Stmt.produce), (.keyword .consume, Stmt.consume)])
    (short : body.length < n) (isBlock : IsBlock body s) :
    (produceStmt block).Takes (t :: .ident name :: body) (make name s) us := by
  apply Takes.bind (Takes.oneOf (by simp) isWord _)
  apply takes_ident_bind
  exact (complete.block us short isBlock).last rfl

theorem takes_assertStmt {condition : List Token} {a : Expr} {message : String}
    (short : condition.length < n) (derived : IsExpr condition a) :
    (assertStmt expr).Takes (.keyword .assert ::
      (inParens (condition ++ [.symbol .comma, .string message]) ++ [.symbol .semicolon]))
      (.assert a message) us := by
  apply Takes.exactly_bind
  apply Takes.bind (a := (a, message))
  · apply Takes.between
    apply Takes.bind (complete.expr short derived (Level.endsAt_symbol (by decide) _))
    apply Takes.exactly_bind
    apply Takes.last
    · apply Takes.accept
      rfl
    · rfl
  · exact (Takes.exactly _ _).last rfl

theorem takes_storeStmt {name : String} {index value : List Token} {a b : Expr}
    (short : (index ++ value).length < n) (indexDerived : IsExpr index a)
    (valueDerived : IsExpr value b) :
    (storeStmt expr).Takes (.ident name :: (inBrackets index ++
      .symbol .assign :: (value ++ [.symbol .semicolon]))) (.store name b a) us := by
  rw [List.length_append] at short
  have takesIndex : ∀ us, (between .leftBracket .rightBracket expr).Takes (inBrackets index) a us :=
    fun _ => (complete.expr (by omega) indexDerived (Level.endsAt_symbol (by decide) _)).between
  apply takes_ident_bind
  apply Takes.bind (takesIndex _)
  apply Takes.exactly_bind
  apply Takes.bind (complete.expr (by omega) valueDerived (Level.endsAt_symbol (by decide) _))
  exact (Takes.exactly _ _).last rfl

theorem takes_argumentsBelow {args : List (Piece Expr)} {ts : List Token} (short : ts.length < n)
    (derived : ∀ arg ∈ args, IsExpr arg.tokens arg.value) (listed : Piece.Listed args ts)
    (us : List Token) : (arguments expr).Takes (inParens ts) (args.map Piece.value) us := by
  have takesArgs : ∀ arg ∈ args, ∀ us, Level.disjunction.EndsAt us →
      expr.Takes arg.tokens arg.value us := by
    intro arg membership us ends
    have inRow := listed.length_le membership
    exact complete.expr (by omega) (derived arg membership) ends
  exact takes_arguments complete.sound takesArgs listed us

theorem takes_provideStmt {name : String} {args : List (Piece Expr)} {ts value : List Token}
    {b : Expr} (short : (ts ++ value).length < n)
    (derived : ∀ arg ∈ args, IsExpr arg.tokens arg.value) (listed : Piece.Listed args ts)
    (valueDerived : IsExpr value b) :
    (provideStmt expr).Takes (.ident name :: (inParens ts ++
      .symbol .assign :: (value ++ [.symbol .semicolon])))
      (.provide name b (args.map Piece.value)) us := by
  rw [List.length_append] at short
  apply takes_ident_bind
  apply Takes.bind (takes_argumentsBelow complete (by omega) derived listed _)
  apply Takes.exactly_bind
  apply Takes.bind (complete.expr (by omega) valueDerived (Level.endsAt_symbol (by decide) _))
  exact (Takes.exactly _ _).last rfl

theorem takes_evaluateStmt {value : List Token} {a : Expr} (short : value.length < n)
    (derived : IsExpr value a) :
    (evaluateStmt expr).Takes (value ++ [.symbol .semicolon]) (.evaluate a) us := by
  apply Takes.bind (complete.expr short derived (Level.endsAt_symbol (by decide) _))
  exact (Takes.exactly _ _).last rfl

theorem refused_at_expr {value : List Token} {a : Expr} (short : value.length < n)
    (derived : IsExpr value a) (us : List Token) :
    ∀ p ∈ [storeStmt expr, provideStmt expr],
      p.Refuses (value ++ [.symbol .semicolon] ++ us) := by
  rw [List.append_assoc, List.singleton_append]
  simp only [List.forall_mem_cons]
  by_cases named : ∃ name, value.head? = some (.ident name)
  · obtain ⟨name, isHead⟩ := named
    obtain ⟨ts, rfl⟩ : ∃ ts, value = .ident name :: ts := by
      cases value with
      | nil => cases isHead
      | cons t ts =>
        cases isHead
        exact ⟨ts, rfl⟩
    obtain ⟨tail, continues, isTail⟩ := derived.exists_tail
    have takesName := takes_ident name (ts ++ .symbol .semicolon :: us)
    refine ⟨takesName.bind_refuses (Refuses.bind (refuses_between ?_) _),
      takesName.bind_refuses ?_, List.forall_mem_nil _⟩
    · rcases isTail with rfl | ⟨args, inner, _, _, rfl⟩
      · exact continues.head_ne (by simp) us
      · simp [inParens]
    · rcases isTail with rfl | ⟨args, inner, argsDerived, listed, rfl⟩
      · exact (refuses_between (continues.head_ne (by simp) us)).bind _
      · simp only [inParens, List.length_cons, List.length_append] at short
        rw [List.append_assoc]
        apply (takes_argumentsBelow complete (by omega) argsDerived listed _).bind_refuses
        exact (refuses_exactly (continues.head_ne (by simp) us)).bind _
  · have noName : ident.Refuses (value ++ .symbol .semicolon :: us) := by
      apply refuses_ident
      intro name isHead
      obtain ⟨t, rest, rfl, _⟩ := derived.start
      exact named ⟨name, isHead⟩
    exact ⟨noName.bind _, noName.bind _, List.forall_mem_nil _⟩

/-- A statement is read whole if no `else` follows that could belong to it. -/
theorem takes_stmt {ts : List Token} (short : ts.length ≤ n) (isStmt : IsStmt IsBlock ts s)
    (noElse : us.head? ≠ some (.keyword .orElse)) : (stmt expr block).Takes ts s us := by
  cases isStmt with
  | letIn derived isBlock =>
    exact takes_keywordForm [.letIn] (by simp [keywordForms]) (by simp)
      (takes_letStmt complete (by simp at short ⊢; omega) derived isBlock)
  | loop minDerived extentDerived isBlock =>
    exact takes_keywordForm [.forLoop] (by simp [keywordForms]) (by simp)
      (takes_forStmt complete (by simp [inParens] at short ⊢; omega) minDerived extentDerived
        isBlock)
  | ifThen derived isBlock =>
    exact takes_keywordForm [.ifThen] (by simp [keywordForms]) (by simp)
      (takes_ifStmt complete (by simp [inParens] at short ⊢; omega) derived isBlock noElse)
  | ifThenElse derived isBlock isOther =>
    exact takes_keywordForm [.ifThen] (by simp [keywordForms]) (by simp)
      (takes_ifElseStmt complete (by simp [inParens] at short ⊢; omega) derived isBlock isOther)
  | allocate known nonempty derived isBlock =>
    exact takes_keywordForm [.allocate] (by simp [keywordForms]) (by simp)
      (takes_allocateStmt complete (by simp [inBrackets] at short ⊢; omega) known nonempty derived
        isBlock)
  | free =>
    exact takes_keywordForm [.free] (by simp [keywordForms]) (by simp) takes_freeStmt
  | realize known nonempty areBounds isBlock =>
    exact takes_keywordForm [.realize] (by simp [keywordForms]) (by simp)
      (takes_realizeStmt complete (by simp [inParens] at short ⊢; omega) known nonempty areBounds
        isBlock)
  | produce isBlock =>
    exact takes_keywordForm [.produce, .consume] (by simp [keywordForms]) (by simp)
      (takes_produceStmt complete (by simp) (by simp at short; omega) isBlock)
  | consume isBlock =>
    exact takes_keywordForm [.produce, .consume] (by simp [keywordForms]) (by simp)
      (takes_produceStmt complete (by simp) (by simp at short; omega) isBlock)
  | assert derived =>
    exact takes_keywordForm [.assert] (by simp [keywordForms]) (by simp)
      (takes_assertStmt complete (by simp [inParens] at short; omega) derived)
  | store indexDerived valueDerived =>
    exact takes_plainForm rfl rfl (takes_storeStmt complete
      (by simp [inBrackets] at short ⊢; omega) indexDerived valueDerived) (List.forall_mem_nil _)
  | @provide name args ts value b derived listed valueDerived =>
    have noStore : (storeStmt expr).Refuses (.ident name :: (inParens ts ++
        .symbol .assign :: (value ++ [.symbol .semicolon])) ++ us) := by
      apply (takes_ident name _).bind_refuses
      exact (refuses_between (by simp)).bind _
    have refused : ∀ p ∈ [storeStmt expr], p.Refuses (.ident name :: (inParens ts ++
        .symbol .assign :: (value ++ [.symbol .semicolon])) ++ us) := by
      simpa using noStore
    exact takes_plainForm rfl rfl (takes_provideStmt complete
      (by simp [inParens] at short ⊢; omega) derived listed valueDerived) refused
  | @evaluate value a derived =>
    rw [List.length_append] at short
    have takes : (evaluateStmt expr).Takes (value ++ [.symbol .semicolon]) (.evaluate a) us :=
      takes_evaluateStmt complete (by simp at short; omega) derived
    have refused := refused_at_expr complete (by simp at short; omega) derived us
    obtain ⟨t, rest, rfl, starts⟩ := derived.start
    exact takes_plainForm rfl starts takes refused

omit complete in
theorem takes_semicolons (count : Nat) (stops : us.head? ≠ some (.symbol .semicolon)) :
    semicolons.Takes (List.replicate count (.symbol .semicolon)) () us := by
  have one : ∀ (u : Unit) (us : List Token),
      (symbol .semicolon).Takes [.symbol .semicolon] u us := fun _ us => Takes.exactly _ us
  have inTurn := Takes.manyOf one (List.replicate count ()) (refuses_exactly stops)
  rw [List.map_replicate] at inTurn
  exact inTurn.last rfl

theorem takes_item {ts : List Token} (short : ts.length ≤ n) (isItem : IsItem IsBlock ts s)
    (noElse : us.head? ≠ some (.keyword .orElse))
    (noSemicolon : us.head? ≠ some (.symbol .semicolon)) : (do
      let first ← stmt expr block
      semicolons
      return first : Parser Stmt).Takes ts s us := by
  cases isItem with
  | mk count isStmt =>
    have stillNoElse : (List.replicate count (Token.symbol .semicolon) ++ us).head? ≠
        some (.keyword .orElse) := by
      cases count with
      | zero => exact noElse
      | succ count => simp [List.replicate_succ]
    rw [List.length_append] at short
    apply Takes.bind (takes_stmt complete (by omega) isStmt stillNoElse)
    exact (takes_semicolons count noSemicolon).last rfl

end Completeness

theorem IsItem.start {Block : List Token → Stmt → Prop} {ts : List Token} {s : Stmt}
    (isItem : IsItem Block ts s) :
    ∃ t rest, ts = t :: rest ∧ t ≠ .keyword .orElse ∧ t ≠ .symbol .semicolon := by
  cases isItem with
  | mk count isStmt =>
    obtain ⟨t, rest, rfl, noElse, noSemicolon, _⟩ := isStmt.start
    exact ⟨t, _, rfl, noElse, noSemicolon⟩

section Whole

theorem takes_block {n : Nat} {expr : Parser Expr} (sound : expr.Sound IsExpr)
    (takesExpr : ∀ ⦃ts e us⦄, ts.length < n → IsExpr ts e → Level.disjunction.EndsAt us →
      expr.Takes ts e us) {depth : Nat} (shallow : depth ≤ n) :
    ∀ ⦃ts s⦄ us, ts.length < depth → IsBlock ts s → (block expr depth).Takes ts s us := by
  induction depth with
  | zero =>
    intro ts s us short
    exact absurd short (Nat.not_lt_zero _)
  | succ depth inductionHypothesis =>
    intro ts s us short isBlock
    cases isBlock with
    | @mk count items s areItems isSequence =>
      obtain rfl := isSequence_iff.mp isSequence
      simp only [inBraces, List.length_cons, List.length_append] at short
      have complete : CompleteBelow depth expr (block expr depth) :=
        { sound := sound
          expr := fun ts e us fits => takesExpr (by omega)
          block := fun ts s us fits => inductionHypothesis (by omega) us fits }
      have starts : ∀ item ∈ items, ∀ us, (item.tokens ++ us).head? ≠ some (.keyword .orElse) ∧
          (item.tokens ++ us).head? ≠ some (.symbol .semicolon) := by
        intro item membership us
        obtain ⟨t, rest, isStart, noElse, noSemicolon⟩ := (areItems item membership).start
        simp [isStart, noElse, noSemicolon]
      have noMore : (stmt expr (block expr depth)).Refuses (.symbol .rightBrace :: us) := by
        apply (sound_stmt sound (sound_block sound depth)).refuses
        intro ts s rest split isStmt
        obtain ⟨t, ts, rfl, _, _, noBrace⟩ := isStmt.start
        cases split
        exact noBrace rfl
      have noSemicolon : (items.flatMap Piece.tokens ++ .symbol .rightBrace :: us).head? ≠
          some (.symbol .semicolon) := by
        cases items with
        | nil => simp
        | cons item items =>
          rw [List.flatMap_cons, List.append_assoc]
          exact (starts item (by simp) _).2
      apply Takes.last
      · apply Takes.between
        apply Takes.bind (takes_semicolons count noSemicolon)
        apply Takes.many fun us => us.head? ≠ some (.keyword .orElse) ∧
          us.head? ≠ some (.symbol .semicolon)
        · intro item membership us ends
          have inRow := length_tokens_le membership Piece.tokens
          exact takes_item complete (by omega) (areItems item membership) ends.1 ends.2
        · intro item membership
          obtain ⟨t, rest, isStart, _⟩ := (areItems item membership).start
          simp [isStart]
        · exact starts
        · simp
        · exact noMore.bind _
      · rfl

theorem takes_param {ts : List Token} {p : Param} (isParam : IsParam ts p) (us : List Token) :
    param.Takes ts p us := by
  have either : ∀ {t : Token} {kind : ParamKind} {name word : String} {type : ScalarType},
      (t, kind) ∈ [(.keyword .buffer, ParamKind.buffer), (.keyword .scalar, ParamKind.scalar)] →
      ScalarType.ofKeyword? word = some type →
      param.Takes [t, .ident name, .symbol .colon, .ident word] ⟨kind, name, type⟩ us := by
    intro t kind name word type inTable known
    apply Takes.bind (Takes.oneOf (by decide) inTable _)
    apply takes_ident_bind
    apply Takes.exactly_bind
    exact (takes_typeWord known us).last rfl
  cases isParam with
  | buffer known => exact either (by decide) known
  | scalar known => exact either (by decide) known

theorem refuses_param (us : List Token) : param.Refuses (.symbol .rightParen :: us) := by
  apply sound_param.refuses
  intro ts p rest split isParam
  cases isParam with
  | buffer _ => cases split
  | scalar _ => cases split

theorem takes_params {params : List (Piece Param)} {ts : List Token}
    (areParams : ∀ p ∈ params, IsParam p.tokens p.value) (listed : Piece.Listed params ts)
    (us : List Token) :
    (parenthesized (commaRowTrailing param)).Takes (inParens ts) (params.map Piece.value) us := by
  have takes : ∀ p ∈ params, ∀ us, True → param.Takes p.tokens p.value us :=
    fun p membership us _ => takes_param (areParams p membership) us
  apply Takes.between
  apply Takes.commaRowTrailing takes
  · exact fun _ => trivial
  · exact listed
  · trivial
  · simp
  · exact refuses_param _

theorem takes_pipeline {depth : Nat} {ts : List Token} {p : Pipeline} (short : ts.length < depth)
    (isPipeline : IsPipeline ts p) (us : List Token) : (pipeline depth).Takes ts p us := by
  cases isPipeline with
  | mk areParams listed isBlock =>
    simp only [List.length_cons, List.length_append] at short
    apply Takes.exactly_bind
    apply takes_ident_bind
    apply Takes.bind (takes_params areParams listed _)
    have takesBody := takes_block (sound_expr depth) (takes_expr depth) (Nat.le_refl depth) us
      (by omega) isBlock
    exact takesBody.last rfl

end Whole

/-- Nothing is left of the tokens of a pipeline. -/
theorem parseTokens_eq_some_iff {tokens rest : Input} {p : Pipeline} :
    (parseTokens tokens).result = some (p, rest) ↔
      rest = [] ∧ IsPipeline (tokensOf tokens) p := by
  change (program (tokens.length + 1)).Reads tokens p rest ↔ _
  simp only [program, reads_bind, reads_atEnd, reads_pure]
  constructor
  · rintro ⟨_, _, readsPipeline, _, _, ⟨rfl, rfl⟩, rfl, rfl⟩
    obtain ⟨ts, split, isPipeline⟩ := sound_pipeline _ readsPipeline
    rw [tokensOf_nil, List.append_nil] at split
    rw [split]
    exact ⟨rfl, isPipeline⟩
  · rintro ⟨rfl, isPipeline⟩
    have short : (tokensOf tokens).length < tokens.length + 1 := by simp [tokensOf]
    have readsPipeline : (pipeline (tokens.length + 1)).Reads (tokens ++ []) p [] :=
      takes_pipeline short isPipeline [] tokens [] rfl rfl
    rw [List.append_nil] at readsPipeline
    exact ⟨p, [], readsPipeline, (), [], ⟨rfl, rfl⟩, rfl, rfl⟩

/-- The parser accepts exactly the token lists that are pipelines, each with the value that the
grammar gives it. -/
theorem parseTokens_result_iff (tokens : Input) (p : Pipeline) :
    (parseTokens tokens).result.map Prod.fst = some p ↔ IsPipeline (tokensOf tokens) p := by
  rw [Option.map_eq_some_iff]
  constructor
  · rintro ⟨⟨_, rest⟩, isResult, rfl⟩
    exact (parseTokens_eq_some_iff.mp isResult).2
  · intro isPipeline
    exact ⟨(p, []), parseTokens_eq_some_iff.mpr ⟨rfl, isPipeline⟩, rfl⟩

end StreamSynth.Grammar
