import StreamSynth.Grammar.Pipeline
import StreamSynth.Proofs.ExprLanguage

/-!
# The language of statements and pipelines

The grammar of statements, blocks and pipelines, stated by its rules over the grammar of
expressions. A statement is described over the language of the blocks in it, as its parser is
given their parser.
-/

namespace StreamSynth.Grammar

def inBrackets (ts : List Token) : List Token :=
  .symbol .leftBracket :: (ts ++ [.symbol .rightBracket])

def inBraces (ts : List Token) : List Token := .symbol .leftBrace :: (ts ++ [.symbol .rightBrace])

inductive IsBound : List Token → Bound → Prop
  | mk {min a extent b} : IsExpr min a → IsExpr extent b →
      IsBound (inBrackets (min ++ .symbol .comma :: extent)) ⟨a, b⟩

/-- The tokens form the statement, when `Block` tells which tokens form which block. -/
inductive IsStmt (Block : List Token → Stmt → Prop) : List Token → Stmt → Prop
  | letIn {name value a body s} : IsExpr value a → Block body s →
      IsStmt Block (.keyword .letIn :: .ident name :: .symbol .assign :: (value ++ body))
        (.letIn name a s)
  | loop {name min a extent b body s} : IsExpr min a → IsExpr extent b → Block body s →
      IsStmt Block (.keyword .forLoop :: (inParens (.ident name :: .symbol .comma ::
        (min ++ .symbol .comma :: extent)) ++ body)) (.loop name a b s)
  | ifThen {condition a body s} : IsExpr condition a → Block body s →
      IsStmt Block (.keyword .ifThen :: (inParens condition ++ body)) (.ifThen a s)
  | ifThenElse {condition a first s second t} : IsExpr condition a → Block first s →
      Block second t →
      IsStmt Block (.keyword .ifThen ::
        (inParens condition ++ (first ++ .keyword .orElse :: second))) (.ifThenElse a s t)
  | allocate {name word type} {extents : List (Piece Expr)} {body s} :
      ScalarType.ofKeyword? word = some type → extents ≠ [] →
      (∀ extent ∈ extents, IsExpr extent.tokens extent.value) → Block body s →
      IsStmt Block (.keyword .allocate :: .ident name ::
        (angled word ++ (inBrackets (Piece.row extents) ++ body)))
        (.allocate name type (extents.map Piece.value) s)
  | free {name} :
      IsStmt Block [.keyword .free, .ident name, .symbol .semicolon] (.free name)
  | realize {name word type} {bounds : List (Piece Bound)} {body s} :
      ScalarType.ofKeyword? word = some type → bounds ≠ [] →
      (∀ bound ∈ bounds, IsBound bound.tokens bound.value) → Block body s →
      IsStmt Block (.keyword .realize :: .ident name ::
        (angled word ++ (inParens (Piece.row bounds) ++ body)))
        (.realize name type (bounds.map Piece.value) s)
  | produce {name body s} : Block body s →
      IsStmt Block (.keyword .produce :: .ident name :: body) (.produce name s)
  | consume {name body s} : Block body s →
      IsStmt Block (.keyword .consume :: .ident name :: body) (.consume name s)
  | assert {condition a message} : IsExpr condition a →
      IsStmt Block (.keyword .assert ::
        (inParens (condition ++ [.symbol .comma, .string message]) ++ [.symbol .semicolon]))
        (.assert a message)
  | store {name index a value b} : IsExpr index a → IsExpr value b →
      IsStmt Block (.ident name :: (inBrackets index ++
        .symbol .assign :: (value ++ [.symbol .semicolon]))) (.store name b a)
  | provide {name} {args : List (Piece Expr)} {ts value b} :
      (∀ arg ∈ args, IsExpr arg.tokens arg.value) → Piece.Listed args ts → IsExpr value b →
      IsStmt Block (.ident name :: (inParens ts ++
        .symbol .assign :: (value ++ [.symbol .semicolon])))
        (.provide name b (args.map Piece.value))
  | evaluate {value a} : IsExpr value a →
      IsStmt Block (value ++ [.symbol .semicolon]) (.evaluate a)

inductive IsItem (Block : List Token → Stmt → Prop) : List Token → Stmt → Prop
  | mk {ts s} (semicolons : Nat) : IsStmt Block ts s →
      IsItem Block (ts ++ List.replicate semicolons (.symbol .semicolon)) s

/-- Statements one after the other as one statement, nested to the right. No statement at all is
an evaluated zero. -/
inductive IsSequence : List Stmt → Stmt → Prop
  | empty : IsSequence [] (.evaluate (.ofInt 0))
  | last {s} : IsSequence [s] s
  | cons {s next rest t} : IsSequence (next :: rest) t → IsSequence (s :: next :: rest) (.block s t)

theorem isSequence_iff {stmts : List Stmt} {s : Stmt} :
    IsSequence stmts s ↔ Stmt.ofList stmts = s := by
  constructor
  · intro isSequence
    induction isSequence with
    | empty => rfl
    | last => rfl
    | cons _ inductionHypothesis => rw [Stmt.ofList, inductionHypothesis]
  · rintro rfl
    induction stmts using Stmt.ofList.induct with
    | case1 => exact .empty
    | case2 => exact .last
    | case3 _ _ _ inductionHypothesis => exact .cons inductionHypothesis

inductive IsBlock : List Token → Stmt → Prop
  | mk (semicolons : Nat) {items : List (Piece Stmt)} {s : Stmt} :
      (∀ item : Piece Stmt, item ∈ items → IsItem IsBlock item.tokens item.value) →
      IsSequence (items.map Piece.value) s →
      IsBlock (inBraces (List.replicate semicolons (.symbol .semicolon) ++
        items.flatMap Piece.tokens)) s

inductive IsParam : List Token → Param → Prop
  | buffer {name word type} : ScalarType.ofKeyword? word = some type →
      IsParam [.keyword .buffer, .ident name, .symbol .colon, .ident word] ⟨.buffer, name, type⟩
  | scalar {name word type} : ScalarType.ofKeyword? word = some type →
      IsParam [.keyword .scalar, .ident name, .symbol .colon, .ident word] ⟨.scalar, name, type⟩

inductive IsPipeline : List Token → Pipeline → Prop
  | mk {name} {params : List (Piece Param)} {ts body s} :
      (∀ param ∈ params, IsParam param.tokens param.value) → Piece.Listed params ts →
      IsBlock body s →
      IsPipeline (.keyword .func :: .ident name :: (inParens ts ++ body))
        ⟨name, params.map Piece.value, s⟩

def Continues (tail : List Token) : Prop :=
  ∀ t, tail.head? = some t →
    t = .symbol .colon ∨ ∃ (l : Level) (sign : Symbol) (op : BinaryOp),
      (sign, op) ∈ l.operators ∧ t = .symbol sign

theorem TypeNote.continues {note : List Token} {type : ScalarType} (isNote : TypeNote note type) :
    Continues note := by
  cases isNote with
  | missing => rintro t ⟨⟩
  | stated _ =>
    rintro t ⟨⟩
    exact .inl rfl

/-- Behind a name no expression goes on with one of these symbols. -/
theorem Continues.head_ne {tail : List Token} (continues : Continues tail) {s : Symbol}
    (never : s ∈ [.leftParen, .leftBracket, .assign]) (us : List Token) :
    (tail ++ .symbol .semicolon :: us).head? ≠ some (.symbol s) := by
  intro isHead
  cases tail with
  | nil =>
    cases isHead
    simp at never
  | cons t tail =>
    cases isHead
    rcases continues _ rfl with isColon | ⟨l, sign, op, isOperator, ⟨⟩⟩
    · cases isColon
      simp at never
    · cases l <;> simp [Level.operators] at isOperator <;> grind

/-- An expression that starts with a name goes on as one, at once or behind arguments. -/
theorem Level.Derives.exists_tail {l : Level} {name : String} {ts : List Token} {e : Expr}
    (derived : l.Derives (.ident name :: ts) e) :
    ∃ tail, Continues tail ∧ (ts = tail ∨ ∃ (args : List (Piece Expr)) (inner : List Token),
      (∀ arg ∈ args, IsExpr arg.tokens arg.value) ∧ Piece.Listed args inner ∧
      ts = inParens inner ++ tail) := by
  generalize isFull : Token.ident name :: ts = full at derived
  induction derived generalizing ts with
  | operand _ _ inductionHypothesis => exact inductionHypothesis isFull
  | @binary l sign op left right a b isOperator leftDerived _ leftTail _ =>
    obtain ⟨t, left, rfl, _⟩ := leftDerived.start
    injection isFull with isName isTail
    subst isName isTail
    obtain ⟨tail, continues, cases⟩ := leftTail rfl
    refine ⟨tail ++ .symbol sign :: right, ?_, ?_⟩
    · intro t isHead
      cases tail with
      | nil =>
        cases isHead
        exact .inr ⟨l, sign, op, isOperator, rfl⟩
      | cons t' tail => exact continues t isHead
    · rcases cases with rfl | ⟨args, inner, derived, listed, rfl⟩
      · exact .inl rfl
      · exact .inr ⟨args, inner, derived, listed, List.append_assoc _ _ _⟩
  | call derived listed isNote _ _ =>
    cases isFull
    exact ⟨_, isNote.continues, .inr ⟨_, _, derived, listed, rfl⟩⟩
  | var isNote =>
    cases isFull
    exact ⟨_, isNote.continues, .inl rfl⟩
  | _ => cases isFull

theorem IsStmt.start {Block : List Token → Stmt → Prop} {ts : List Token} {s : Stmt}
    (isStmt : IsStmt Block ts s) :
    ∃ t rest, ts = t :: rest ∧ t ≠ .keyword .orElse ∧ t ≠ .symbol .semicolon ∧
      t ≠ .symbol .rightBrace := by
  cases isStmt with
  | evaluate derived =>
    obtain ⟨t, rest, rfl, starts⟩ := derived.start
    refine ⟨t, _, rfl, ?_, ?_, ?_⟩
    all_goals
      rintro rfl
      cases starts
  | _ => exact ⟨_, _, rfl, by simp, by simp, by simp⟩

end StreamSynth.Grammar
