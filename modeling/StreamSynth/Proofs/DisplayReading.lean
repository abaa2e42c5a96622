import StreamSynth.Expr.Display
import StreamSynth.Proofs.PipelineParsing
import StreamSynth.Proofs.Scanning

/-!
# Displayed expressions read back

The text of an expression in messages is source text of the same expression, as long as its
constants, names and types can be written in source text. Each kind of expression comes back from
its text when its parts do: the text spells tokens that form the expression again, as an operand
of any operator.
-/

namespace StreamSynth

open Lexer Grammar

def IsName (name : String) : Prop := IsWord name.toList ∧ Keyword.ofWord? name = none

def ScalarType.IsNamed (type : ScalarType) : Prop := ∃ word, ofKeyword? word = some type

/-- Expressions that can be written in source text. Names and calls have the type that they have
without a note. -/
inductive Expr.Readable : Expr → Prop
  | int {value} : Int64.minValue < value → Readable (.int value .default)
  | string {text : String} : (∀ c ∈ text.toList, IsQuotable c) → Readable (.string text)
  | var {name} : IsName name → Readable (.var name .default)
  | cast {type arg} : type.IsNamed → Readable arg → Readable (.cast type arg)
  | binary {op left right} : Readable left → Readable right → Readable (.binary op left right)
  | not {arg} : Readable arg → Readable (.not arg)
  | select {condition whenTrue whenFalse} : Readable condition → Readable whenTrue →
      Readable whenFalse → Readable (.select condition whenTrue whenFalse)
  | load {name type index} : IsName name → type.IsNamed → Readable index →
      Readable (.load name type index)
  | call {name args} : IsName name → name ∉ ["min", "max", "select"] →
      (∀ arg ∈ args, Readable arg) → Readable (.call name .default args)

section Words

theorem IsName.spells {name : String} (isName : IsName name) :
    Spells name.toList [.ident name] := by
  have spells := Spells.word isName.1
  rwa [wordToken, isName.2] at spells

def isSimpleName (name : String) : Bool :=
  name.toList.head?.any isWordStart && name.toList.tail.all isWordPart &&
    (Keyword.ofWord? name).isNone

theorem isName_of_isSimpleName {name : String} (isSimple : isSimpleName name = true) :
    IsName name := by
  simp only [isSimpleName, Bool.and_eq_true, Option.isNone_iff_eq_none] at isSimple
  obtain ⟨⟨starts, areParts⟩, noKeyword⟩ := isSimple
  exact ⟨isWord_of_isWordPart starts areParts, noKeyword⟩

theorem Keyword.spells (keyword : Keyword) :
    Spells keyword.spelling.toList [.keyword keyword] := by
  have spells := Spells.word (isWord_spelling keyword)
  rwa [wordToken, ofWord?_eq_some_iff.mpr rfl] at spells

theorem ScalarType.display_spec : ∀ type ∈ keywords.map Prod.snd,
    ofKeyword? type.display = some type ∧ isSimpleName type.display = true := by
  decide

theorem ScalarType.IsNamed.isName_display {type : ScalarType} (isNamed : type.IsNamed) :
    IsName type.display ∧ ofKeyword? type.display = some type := by
  obtain ⟨word, isType⟩ := isNamed
  obtain ⟨before, after, isKeywords, -⟩ := List.lookup_eq_some_iff.mp isType
  obtain ⟨isSame, isSimple⟩ := display_spec type (by simp [isKeywords])
  exact ⟨isName_of_isSimpleName isSimple, isSame⟩

end Words

namespace Lexer.Spells

variable {text more : List Char} {ts us : List Token}

theorem closing {c : Char} {sign : Symbol} (spells : Spells text ts)
    (isSign : Symbol.ofChar? c = some sign) (isDelimiter : c ∈ delimiters) :
    Spells (text ++ [c]) (ts ++ [.symbol sign]) := by
  obtain ⟨-, -, -, notSign⟩ := not_lexeme_of_delimiter isDelimiter
  exact spells.append (nil.symbol isSign notSign) isDelimiter

theorem parens (spells : Spells text ts) : Spells ('(' :: (text ++ [')'])) (inParens ts) :=
  (spells.closing rfl (by decide)).symbol rfl (by decide)

theorem comma (first : Spells text ts) (second : Spells more us) :
    Spells (text ++ ',' :: ' ' :: more) (ts ++ .symbol .comma :: us) :=
  first.append (second.blank.symbol rfl (by decide)) (by decide)

theorem between (symbol : Symbol) (spells : Spells text ts) :
    Spells (' ' :: (symbol.spelling.toList ++ ' ' :: text)) (.symbol symbol :: ts) where
  plain _ _ := plain_cons (by decide) _
  scans {rest us} ends scans := by
    have behind : Scans (' ' :: text ++ rest) (ts ++ us) := (spells.scans ends scans).blank
    rw [List.cons_append, List.append_assoc]
    exact (behind.spelling symbol (plain_cons (by decide) _)).blank

/-- A keyword with a type between angle brackets, and parentheses behind it. -/
theorem typed (keyword : Keyword) {type : ScalarType} (isNamed : type.IsNamed)
    (spells : Spells text ts) :
    Spells (keyword.spelling.toList ++
        '<' :: (type.display.toList ++ '>' :: '(' :: (text ++ [')'])))
      (.keyword keyword :: (angled type.display ++ inParens ts)) := by
  have behind := spells.parens.symbol (rfl : Symbol.ofChar? '>' = _) (by decide)
  have named := isNamed.isName_display.1.spells.append behind (by decide)
  exact keyword.spells.append (named.symbol (rfl : Symbol.ofChar? '<' = _) (by decide)) (by decide)

theorem row {pieces : List (Piece Expr)}
    (spells : ∀ piece ∈ pieces, Spells piece.value.display.toList piece.tokens) :
    Spells (commaSeparated (Expr.displayAll (pieces.map Piece.value))).toList
      (Piece.row pieces) := by
  induction pieces with
  | nil => exact nil
  | cons piece pieces inductionHypothesis =>
    obtain ⟨first, others⟩ := List.forall_mem_cons.mp spells
    cases pieces with
    | nil => simpa [commaSeparated, joinWith, Expr.displayAll, Piece.row] using first
    | cons next rest =>
      have both := first.comma (inductionHypothesis others)
      simpa [commaSeparated, joinWith, Expr.displayAll, Piece.row] using both

end Lexer.Spells

theorem Grammar.Level.rank_le_operand {l looser : Level} (differ : l ≠ looser)
    (isLooser : l.rank ≤ looser.rank) :
    looser ≠ .atom ∧ l.rank ≤ looser.operand.rank ∧ looser.operand.rank < looser.rank := by
  cases l <;> cases looser <;> simp_all [rank, operand]

theorem Grammar.Level.Derives.loosen {l looser : Level} {ts : List Token} {e : Expr}
    (derived : l.Derives ts e) (isLooser : l.rank ≤ looser.rank) : looser.Derives ts e := by
  by_cases same : l = looser
  · exact same ▸ derived
  obtain ⟨notAtom, closer, tighter⟩ := rank_le_operand same isLooser
  exact .operand notAtom (derived.loosen closer)
termination_by looser.rank
decreasing_by exact tighter

/-- An operator that is written between its operands belongs to a level, with its sign. -/
theorem exists_operator {op : BinaryOp} {sign : String} (isSign : op.sign? = some sign) :
    ∃ (l : Level) (symbol : Symbol), (symbol, op) ∈ l.operators ∧ symbol.spelling = sign := by
  cases op <;> cases isSign
  case or => exact ⟨.disjunction, .or, by decide⟩
  case and => exact ⟨.conjunction, .and, by decide⟩
  case eq => exact ⟨.comparison, .equal, by decide⟩
  case ne => exact ⟨.comparison, .notEqual, by decide⟩
  case lt => exact ⟨.comparison, .less, by decide⟩
  case le => exact ⟨.comparison, .lessEqual, by decide⟩
  case gt => exact ⟨.comparison, .greater, by decide⟩
  case ge => exact ⟨.comparison, .greaterEqual, by decide⟩
  case add => exact ⟨.sum, .plus, by decide⟩
  case sub => exact ⟨.sum, .minus, by decide⟩
  case mul => exact ⟨.product, .star, by decide⟩
  case div => exact ⟨.product, .slash, by decide⟩
  case mod => exact ⟨.product, .percent, by decide⟩

theorem toInt_neg_of_minValue_lt {value : Int64} (low : Int64.minValue < value) :
    (-value).toInt = -value.toInt := by
  have low : -2 ^ 63 < value.toInt := by simpa using Int64.lt_iff_toInt_lt.mp low
  have high := value.toInt_lt
  rw [Int64.toInt_neg, Int.bmod_eq_of_le (by omega) (by omega)]

/-- The expression is displayed as a text of these tokens, and they form it again. -/
structure Expr.ReadsBack (e : Expr) (written : List Token) : Prop where
  spells : Spells e.display.toList written
  derives : Level.signed.Derives written e

namespace Expr.ReadsBack

variable {e left right : Expr} {ts us : List Token}

theorem var {name : String} (isName : IsName name) :
    (Expr.var name .default).ReadsBack [.ident name] where
  spells := isName.spells
  derives := .operand (by decide) (.var .missing)

/-- A negative constant is read as a minus before its absolute value. -/
theorem int {value : Int64} (low : Int64.minValue < value) :
    ∃ written, (Expr.int value .default).ReadsBack written := by
  have fits : int64? value.toInt = some value := int64?_toInt value
  have negFits : int64? (-value.toInt) = some (-value) := by
    rw [← toInt_neg_of_minValue_lt low, int64?_toInt]
  cases isInt : value.toInt with
  | ofNat n =>
    rw [isInt] at fits
    refine ⟨[.int value], ?_, .operand (by decide) .int⟩
    rw [display, isInt]
    change Spells n.repr.toList _
    rw [Nat.toList_repr]
    exact Spells.digits fits
  | negSucc n =>
    rw [isInt] at negFits
    have spells := (Spells.digits negFits).symbol (rfl : Symbol.ofChar? '-' = _) (by decide)
    have negated : Negated (.ofInt (-value)) (.int value .default) := by
      have twice : Negated (.ofInt (-value)) (.int (- -value) .default) := .int
      rwa [Int64.neg_neg] at twice
    refine ⟨_, ?_, .minus (.operand (by decide) .int) negated⟩
    rw [display, isInt]
    change Spells ("-" ++ (n + 1).repr).toList _
    simpa using spells

theorem string {text : String} (quotable : ∀ c ∈ text.toList, IsQuotable c) :
    (Expr.string text).ReadsBack [.string text] where
  spells := .quoted quotable
  derives := .operand (by decide) .string

theorem cast {type : ScalarType} (isNamed : type.IsNamed) (arg : e.ReadsBack ts) :
    (Expr.cast type e).ReadsBack (.keyword .cast :: (angled type.display ++ inParens ts)) where
  spells := by
    have spells := arg.spells.typed .cast isNamed
    simpa [display, Keyword.spelling] using spells
  derives := .operand (by decide)
    (.cast isNamed.isName_display.2 (arg.derives.loosen (by decide)))

theorem load {name : String} {type : ScalarType} (isName : IsName name) (isNamed : type.IsNamed)
    (index : e.ReadsBack ts) :
    (Expr.load name type e).ReadsBack (.keyword .load ::
      (angled type.display ++ inParens (.ident name :: .symbol .comma :: ts))) where
  spells := by
    have spells := (isName.spells.comma index.spells).typed .load isNamed
    simpa [display, Keyword.spelling] using spells
  derives := .operand (by decide)
    (.load isNamed.isName_display.2 (index.derives.loosen (by decide)))

theorem not (arg : e.ReadsBack ts) : (Expr.not e).ReadsBack (.symbol .bang :: ts) where
  spells := by
    have spells := arg.spells.symbol (rfl : Symbol.ofChar? '!' = _) (by decide)
    simpa [display] using spells
  derives := .bang arg.derives

theorem call {name : String} {pieces : List (Piece Expr)} (isName : IsName name)
    (args : ∀ piece ∈ pieces, piece.value.ReadsBack piece.tokens)
    (isDisplay : e.display =
      name ++ "(" ++ commaSeparated (displayAll (pieces.map Piece.value)) ++ ")")
    (means : CallMeans .default name (pieces.map Piece.value) e) :
    e.ReadsBack (.ident name :: (inParens (Piece.row pieces) ++ [])) where
  spells := by
    have row := Spells.row fun piece membership => (args piece membership).spells
    have spells := isName.spells.append row.parens (by decide)
    simpa [isDisplay] using spells
  derives := by
    have derived (piece : Piece Expr) (membership : piece ∈ pieces) :
        IsExpr piece.tokens piece.value := (args piece membership).derives.loosen (by decide)
    exact .operand (by decide) (.call derived .plain .missing means)

theorem binary {op : BinaryOp} {sign : String} (isSign : op.sign? = some sign)
    (first : left.ReadsBack ts) (second : right.ReadsBack us) :
    ∃ written, (Expr.binary op left right).ReadsBack written := by
  obtain ⟨l, symbol, isOperator, rfl⟩ := exists_operator isSign
  have behind := second.spells.between symbol
  have spells := (first.spells.append behind (by decide)).parens
  have operands : 1 ≤ l.operand.rank ∧ 1 ≤ l.rank ∧ l.rank ≤ Level.disjunction.rank := by
    cases l <;> first | decide | cases isOperator
  have derived : l.Derives (ts ++ .symbol symbol :: us) (.binary op left right) :=
    .binary isOperator (first.derives.loosen operands.2.1) (second.derives.loosen operands.1)
  refine ⟨inParens (ts ++ .symbol symbol :: us), ?_, ?_⟩
  · simpa [display, displayBinary, isSign] using spells
  · exact .operand (by decide) (.parens (derived.loosen operands.2.2))

theorem extremum {op : BinaryOp} (noSign : op.sign? = none) (first : left.ReadsBack ts)
    (second : right.ReadsBack us) : ∃ written, (Expr.binary op left right).ReadsBack written := by
  have operands : ∀ piece ∈ [Piece.mk ts left, Piece.mk us right],
      piece.value.ReadsBack piece.tokens := by simp [first, second]
  have isDisplay (name : String)
      (isOpening : (if op = .min then "min(" else "max(") = name ++ "(") :
      (Expr.binary op left right).display =
        name ++ "(" ++ commaSeparated (displayAll [left, right]) ++ ")" := by
    simp [display, displayBinary, noSign, isOpening, commaSeparated, joinWith, displayAll,
      String.append_assoc]
  cases op with
  | min =>
    have isName : IsName "min" := isName_of_isSimpleName (by decide)
    exact ⟨_, call isName operands (isDisplay "min" rfl) .min⟩
  | max =>
    have isName : IsName "max" := isName_of_isSimpleName (by decide)
    exact ⟨_, call isName operands (isDisplay "max" rfl) .max⟩
  | _ => cases noSign

theorem select {condition : Expr} {vs : List Token} (isCondition : condition.ReadsBack vs)
    (whenTrue : left.ReadsBack ts) (whenFalse : right.ReadsBack us) :
    ∃ written, (Expr.select condition left right).ReadsBack written := by
  have operands : ∀ piece ∈ [Piece.mk vs condition, Piece.mk ts left, Piece.mk us right],
      piece.value.ReadsBack piece.tokens := by simp [isCondition, whenTrue, whenFalse]
  have isName : IsName "select" := isName_of_isSimpleName (by decide)
  refine ⟨_, call isName operands ?_ .select⟩
  have opening : "select(" = "select" ++ "(" := rfl
  simp [display, opening, commaSeparated, joinWith, displayAll, String.append_assoc]

end Expr.ReadsBack

theorem Piece.exists_of_forall {α : Type} {P : α → List Token → Prop} {values : List α}
    (holds : ∀ value ∈ values, ∃ tokens, P value tokens) :
    ∃ pieces : List (Piece α), pieces.map Piece.value = values ∧
      ∀ piece ∈ pieces, P piece.value piece.tokens := by
  induction values with
  | nil => exact ⟨[], rfl, by simp⟩
  | cons value values inductionHypothesis =>
    obtain ⟨⟨tokens, first⟩, others⟩ := List.forall_mem_cons.mp holds
    obtain ⟨pieces, isValues, all⟩ := inductionHypothesis others
    exact ⟨⟨tokens, value⟩ :: pieces, by simp [isValues], List.forall_mem_cons.mpr ⟨first, all⟩⟩

theorem Expr.Readable.readsBack {e : Expr} (readable : e.Readable) :
    ∃ written, e.ReadsBack written := by
  induction readable with
  | int low => exact ReadsBack.int low
  | string quotable => exact ⟨_, .string quotable⟩
  | var isName => exact ⟨_, .var isName⟩
  | cast isNamed _ arg =>
    obtain ⟨_, arg⟩ := arg
    exact ⟨_, arg.cast isNamed⟩
  | @binary op _ _ _ _ first second =>
    obtain ⟨_, first⟩ := first
    obtain ⟨_, second⟩ := second
    cases isSign : op.sign? with
    | some sign => exact ReadsBack.binary isSign first second
    | none => exact ReadsBack.extremum isSign first second
  | not _ arg =>
    obtain ⟨_, arg⟩ := arg
    exact ⟨_, arg.not⟩
  | select _ _ _ condition whenTrue whenFalse =>
    obtain ⟨_, condition⟩ := condition
    obtain ⟨_, whenTrue⟩ := whenTrue
    obtain ⟨_, whenFalse⟩ := whenFalse
    exact condition.select whenTrue whenFalse
  | load isName isNamed _ index =>
    obtain ⟨_, index⟩ := index
    exact ⟨_, index.load isName isNamed⟩
  | call isName notOperator _ args =>
    obtain ⟨pieces, rfl, readBack⟩ := Piece.exists_of_forall args
    simp only [List.mem_cons, List.not_mem_nil, or_false, not_or] at notOperator
    exact ⟨_, .call isName readBack rfl (.call notOperator.1 notOperator.2.1 notOperator.2.2)⟩

theorem parse_of_isPipeline {source : String} {ts : List Token} {p : Pipeline}
    (areTokens : Parser.tokensOf (lex source).tokens = ts) (isPipeline : IsPipeline ts p) :
    parse source = ⟨some p, (lex source).errors.map lexError⟩ := by
  subst areTokens
  rw [parse, parseTokens_eq_some_iff.mpr ⟨rfl, isPipeline⟩]

theorem parse_eq_of_isPipeline {source : String} {ts : List Token} {p : Pipeline}
    (scans : Scans source.toList ts) (isPipeline : IsPipeline ts p) :
    parse source = ⟨some p, []⟩ := by
  obtain ⟨noErrors, areTokens⟩ : (lex source).errors = [] ∧
      (lex source).tokens.map Prod.fst = ts := scans 0
  rw [parse_of_isPipeline areTokens isPipeline, noErrors, List.map_nil]

theorem isPipeline_evaluate {ts : List Token} {e : Expr} (isExpr : IsExpr ts e) :
    IsPipeline (.keyword .func :: .ident "f" ::
        (inParens [] ++ inBraces (ts ++ [.symbol .semicolon]))) ⟨"f", [], .evaluate e⟩ := by
  have isItem : IsItem IsBlock (ts ++ [.symbol .semicolon]) (.evaluate e) := by
    simpa using IsItem.mk 0 (.evaluate isExpr)
  have isBlock : IsBlock (inBraces (ts ++ [.symbol .semicolon])) (.evaluate e) := by
    have items : ∀ item ∈ [Piece.mk (ts ++ [.symbol .semicolon]) (Stmt.evaluate e)],
        IsItem IsBlock item.tokens item.value := by simpa using isItem
    simpa using IsBlock.mk 0 items .last
  have noParams : ∀ param ∈ ([] : List (Piece Param)), IsParam param.tokens param.value := by simp
  exact .mk noParams .plain isBlock

theorem Lexer.Spells.function {text : String} {ts : List Token} (spells : Spells text.toList ts) :
    Spells ("func f() \x7b " ++ text ++ "; \x7d").toList
      (.keyword .func :: .ident "f" :: (inParens [] ++ inBraces (ts ++ [.symbol .semicolon]))) := by
  have isName : IsName "f" := isName_of_isSimpleName (by decide)
  have brace : Spells ['\x7d'] [.symbol .rightBrace] := nil.symbol rfl (by decide)
  have stmt := (spells.closing (rfl : Symbol.ofChar? ';' = _) (by decide)).append brace.blank
    (by decide)
  have body := stmt.blank.symbol (rfl : Symbol.ofChar? '\x7b' = _) (by decide)
  have name := isName.spells.append nil.parens (by decide)
  have declared := name.append body.blank (by decide)
  have whole := (Keyword.spells .func).append declared.blank (by decide)
  simpa [Keyword.spelling, inParens, inBraces] using whole

/-- The text of an expression, put into a function as its only statement, is parsed without an
error as that expression. -/
theorem parse_display {e : Expr} (readable : e.Readable) :
    parse ("func f() \x7b " ++ e.display ++ "; \x7d") = ⟨some ⟨"f", [], .evaluate e⟩, []⟩ := by
  obtain ⟨written, readBack⟩ := readable.readsBack
  have noDelimiter : Delimits [] := by rintro _ ⟨⟩
  have scans := readBack.spells.function.scans noDelimiter scans_nil
  rw [List.append_nil, List.append_nil] at scans
  exact parse_eq_of_isPipeline scans (isPipeline_evaluate (readBack.derives.loosen (by decide)))

def everyKind : Expr :=
  let condition : Expr := .not (.binary .le (.ofInt (-5)) (.var "in.0" .default))
  let text : Expr := .string "// \"a\\\n\""
  .binary .sub (.select condition (.cast .bool (.load "buf" (.float 64) (.ofInt 0))) text)
    (.not (.call "f" .default [.binary .max (.ofInt (-1)) (.ofInt 1), .call "g" .default []]))

theorem parse_display_everyKind :
    everyKind.display =
        "(select(!(-5 <= in.0), cast<bool>(load<float64>(buf, 0)), \"// \\\"a\\\\\\n\\\"\") - " ++
          "!f(max(-1, 1), g()))" ∧
      parse ("func f() \x7b " ++ everyKind.display ++ "; \x7d") =
        ⟨some ⟨"f", [], .evaluate everyKind⟩, []⟩ := by
  have isIn : IsName "in.0" := by
    have isWord : IsWord "in.0".toList :=
      ⟨'i', ['n'], [['0']], rfl, rfl, List.all_eq_true.mp rfl, by simp [isWordPart]⟩
    exact ⟨isWord, by decide⟩
  have isBuf : IsName "buf" := isName_of_isSimpleName (by decide)
  have isF : IsName "f" := isName_of_isSimpleName (by decide)
  have isG : IsName "g" := isName_of_isSimpleName (by decide)
  have calls : ∀ arg ∈ [.binary .max (.ofInt (-1)) (.ofInt 1), .call "g" .default []],
      Expr.Readable arg := by
    refine List.forall_mem_cons.mpr ⟨.binary (.int (by decide)) (.int (by decide)), ?_⟩
    exact List.forall_mem_singleton.mpr (.call isG (by decide) (by simp))
  have quotable : ∀ c ∈ "// \"a\\\n\"".toList, IsQuotable c := by
    have all : ("// \"a\\\n\"".toList.all fun c => decide (IsQuotable c)) = true := by decide
    simpa only [List.all_eq_true, decide_eq_true_eq] using all
  have readable : everyKind.Readable :=
    .binary
      (.select (.not (.binary (.int (by decide)) (.var isIn)))
        (.cast ⟨"bool", rfl⟩ (.load isBuf ⟨"float64", rfl⟩ (.int (by decide))))
        (.string quotable))
      (.not (.call isF (by decide) calls))
  exact ⟨by decide, parse_display readable⟩

end StreamSynth
