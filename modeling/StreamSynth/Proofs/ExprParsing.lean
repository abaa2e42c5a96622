import StreamSynth.Proofs.ExprLanguage

/-!
# Parsing expressions

The parser of expressions reads phrases of their language only, and it reads every phrase that
is not continued by what stands behind it. The first part goes by induction on the depth of the
parser; the second by induction on the number of tokens, which bounds the depth.
-/

namespace StreamSynth.Grammar

open StreamSynth.Parser

namespace Level

def parser (expr : Parser Expr) : Level → Parser Expr
  | disjunction => disjunctions expr
  | conjunction => conjunctions expr
  | comparison => comparisons expr
  | sum => sums expr
  | product => products expr
  | signed => Grammar.signed expr
  | atom => Grammar.atom expr

def operator (l : Level) : Parser BinaryOp :=
  oneOf (l.operators.map fun (sign, op) => (.symbol sign, op))

theorem parser_eq_level {l : Level} (expr : Parser Expr) (notSigned : l ≠ signed)
    (notAtom : l ≠ atom) : l.parser expr = level (l.operand.parser expr) l.operator := by
  cases l with
  | signed => exact absurd rfl notSigned
  | atom => exact absurd rfl notAtom
  | _ => rfl

end Level

def signs : Parser (List Sign) := many (oneOf [(.symbol .minus, .minus), (.symbol .bang, .bang)])

theorem signed_eq (expr : Parser Expr) : Grammar.signed expr = do
    let signs ← signs
    let base ← Grammar.atom expr
    return signs.foldr applySign base := rfl

section Soundness

theorem sound_signs : signs.Sound fun ts found => ts = found.map Sign.token := by
  have one : (oneOf [(.symbol .minus, .minus), (.symbol .bang, .bang)]).Sound fun ts sign =>
      ts = [Sign.token sign] := by
    intro input sign rest reads
    obtain ⟨_, split, t, inTable, rfl⟩ := Sound.oneOf _ reads
    simp only [List.mem_cons, Prod.mk.injEq, List.not_mem_nil, or_false] at inTable
    rcases inTable with ⟨rfl, rfl⟩ | ⟨rfl, rfl⟩
    · exact ⟨_, split, rfl⟩
    · exact ⟨_, split, rfl⟩
  intro input found rest reads
  obtain ⟨_, split, pieces, phrases, rfl, rfl⟩ := one.many reads
  exact ⟨_, split, Piece.flatMap_tokens_eq_map Sign.token phrases⟩

theorem reads_ident {input rest : Input} {name : String} :
    ident.Reads input name rest ↔ ∃ span, input = (.ident name, span) :: rest := by
  rw [ident, reads_accept]
  constructor
  · rintro ⟨token, span, rfl, accepted⟩
    cases token with
    | ident found => cases accepted; exact ⟨span, rfl⟩
    | _ => cases accepted
  · rintro ⟨span, rfl⟩
    exact ⟨_, span, rfl, rfl⟩

theorem reads_typeWord {input rest : Input} {type : ScalarType} :
    typeWord.Reads input type rest ↔
      ∃ word span, input = (.ident word, span) :: rest ∧
        ScalarType.ofKeyword? word = some type := by
  rw [typeWord, reads_refine]
  simp only [reads_ident]
  constructor
  · rintro ⟨word, ⟨span, rfl⟩, accepted⟩
    cases known : ScalarType.ofKeyword? word with
    | none => simp [known] at accepted
    | some found =>
      simp only [known, Except.ok.injEq] at accepted
      exact ⟨word, span, rfl, by rw [known, accepted]⟩
  · rintro ⟨word, span, rfl, known⟩
    exact ⟨word, ⟨span, rfl⟩, by simp [known]⟩

theorem reads_typeNote {input rest : Input} {note : Option ScalarType}
    (reads : (optional typeNote).Reads input note rest) :
    ∃ ts, tokensOf input = ts ++ tokensOf rest ∧ TypeNote ts (note.getD .default) := by
  rcases reads_optional reads with ⟨type, rfl, readsType⟩ | ⟨rfl, rfl⟩
  · simp only [typeNote, symbol, reads_bind, reads_exactly, reads_typeWord] at readsType
    obtain ⟨_, _, ⟨_, rfl⟩, word, _, rfl, known⟩ := readsType
    exact ⟨[.symbol .colon, .ident word], rfl, .stated known⟩
  · exact ⟨[], rfl, .missing⟩

theorem reads_angleType {input rest : Input} {type : ScalarType}
    (reads : angleType.Reads input type rest) :
    ∃ word, tokensOf input = angled word ++ tokensOf rest ∧
      ScalarType.ofKeyword? word = some type := by
  simp only [angleType, between, symbol, reads_bind, reads_exactly, reads_typeWord,
    reads_pure] at reads
  obtain ⟨_, _, ⟨_, rfl⟩, _, _, ⟨word, _, rfl, known⟩, _, _, ⟨_, rfl⟩, rfl, rfl⟩ := reads
  exact ⟨word, rfl, known⟩

theorem callOf_eq_ok_iff {name : String} {args : List Expr} {note : Option ScalarType}
    {e : Expr} : callOf name args note = .ok e ↔ CallMeans (note.getD .default) name args e := by
  constructor
  · intro accepted
    unfold callOf at accepted
    split at accepted
    · next extremum =>
      split at accepted
      · rcases extremum with rfl | rfl
        · cases accepted
          exact .min
        · cases accepted
          exact .max
      · cases accepted
    · next noExtremum =>
      obtain ⟨notMin, notMax⟩ := not_or.mp noExtremum
      split at accepted
      · next isSelect =>
        subst isSelect
        split at accepted
        · cases accepted
          exact .select
        · cases accepted
      · next notSelect =>
        cases accepted
        exact .call notMin notMax notSelect
  · intro means
    cases means with
    | min => rfl
    | max => rfl
    | select => rfl
    | call notMin notMax notSelect => simp [callOf, notMin, notMax, notSelect]

theorem sound_literal : literal.Sound Level.atom.Derives := by
  intro input e rest reads
  obtain ⟨token, span, rfl, accepted⟩ := reads_accept.mp reads
  cases token <;> cases accepted
  · exact ⟨_, rfl, .int⟩
  · exact ⟨_, rfl, .single⟩
  · exact ⟨_, rfl, .double⟩
  · exact ⟨_, rfl, .string⟩

theorem sound_varExpr : varExpr.Sound Level.atom.Derives := by
  intro input e rest reads
  simp only [varExpr, reads_bind, reads_ident, reads_pure] at reads
  obtain ⟨name, _, ⟨_, rfl⟩, note, _, readsNote, rfl, rfl⟩ := reads
  obtain ⟨ts, split, isNote⟩ := reads_typeNote readsNote
  exact ⟨.ident name :: ts, by simp [split], .var isNote⟩

theorem sound_operator (l : Level) : l.operator.Sound fun ts op =>
    ∃ sign, (sign, op) ∈ l.operators ∧ ts = [.symbol sign] := by
  intro input op rest reads
  obtain ⟨_, split, t, inTable, rfl⟩ := Sound.oneOf _ reads
  obtain ⟨⟨sign, op⟩, isOperator, ⟨⟩⟩ := List.mem_map.mp inTable
  exact ⟨_, split, sign, isOperator, rfl⟩

theorem sound_level {expr : Parser Expr} {l : Level} (notSigned : l ≠ .signed) (notAtom : l ≠ .atom)
    (soundOperand : (l.operand.parser expr).Sound l.operand.Derives) :
    (l.parser expr).Sound l.Derives := by
  have soundLink : (do
      let op ← l.operator
      let right ← l.operand.parser expr
      return (op, right) : Parser (BinaryOp × Expr)).Sound fun ts link =>
        ∃ sign right, (sign, link.1) ∈ l.operators ∧ ts = .symbol sign :: right ∧
          l.operand.Derives right link.2 := by
    intro input link rest reads
    simp only [reads_bind, reads_pure] at reads
    obtain ⟨op, _, readsOp, right, _, readsRight, rfl, rfl⟩ := reads
    obtain ⟨_, splitOp, sign, isOperator, rfl⟩ := sound_operator l readsOp
    obtain ⟨ts, splitRight, derived⟩ := soundOperand readsRight
    exact ⟨_, by simp [splitOp, splitRight], sign, ts, isOperator, rfl, derived⟩
  intro input e rest reads
  rw [l.parser_eq_level expr notSigned notAtom] at reads
  simp only [level, reads_bind, reads_pure] at reads
  obtain ⟨first, _, readsFirst, _, _, readsLinks, rfl, rfl⟩ := reads
  obtain ⟨ts, splitFirst, derived⟩ := soundOperand readsFirst
  obtain ⟨_, splitLinks, links, derivedLinks, rfl, rfl⟩ := soundLink.many readsLinks
  exact ⟨_, by simp [splitFirst, splitLinks], (derived.operand notAtom).links derivedLinks⟩

variable {expr : Parser Expr} (sound : expr.Sound IsExpr)

include sound

theorem sound_parenthesized : (parenthesized expr).Sound Level.atom.Derives := by
  intro input e rest reads
  obtain ⟨_, split, inner, rfl, derived⟩ := sound.between reads
  exact ⟨_, split, .parens derived⟩

theorem sound_castExpr : (castExpr expr).Sound Level.atom.Derives := by
  intro input e rest reads
  simp only [castExpr, keyword, reads_bind, reads_exactly, reads_pure] at reads
  obtain ⟨_, _, ⟨_, rfl⟩, type, _, readsType, arg, _, readsArg, rfl, rfl⟩ := reads
  obtain ⟨word, splitType, known⟩ := reads_angleType readsType
  obtain ⟨_, splitArg, inner, rfl, derived⟩ := sound.between readsArg
  exact ⟨_, by simp [splitType, splitArg, inParens], .cast known derived⟩

theorem sound_loadExpr : (loadExpr expr).Sound Level.atom.Derives := by
  intro input e rest reads
  simp only [loadExpr, parenthesized, between, keyword, symbol, reads_bind, reads_exactly,
    reads_ident, reads_pure] at reads
  obtain ⟨_, _, ⟨_, rfl⟩, type, _, readsType, _, _, ⟨_, _, ⟨_, rfl⟩, _, _, ⟨name, _, ⟨_, rfl⟩,
    _, _, ⟨_, rfl⟩, index, _, readsIndex, rfl, rfl⟩, _, _, ⟨_, rfl⟩, rfl, rfl⟩, rfl, rfl⟩ := reads
  obtain ⟨word, splitType, known⟩ := reads_angleType readsType
  obtain ⟨ts, splitIndex, derived⟩ := sound readsIndex
  refine ⟨_, ?_, .load known derived⟩
  simp only [tokensOf_cons] at splitType
  simp [splitType, splitIndex, inParens]

theorem sound_arguments : (arguments expr).Sound fun ts values =>
    ∃ (pieces : List (Piece Expr)) (inner : List Token),
      (∀ piece ∈ pieces, IsExpr piece.tokens piece.value) ∧ Piece.Listed pieces inner ∧
      ts = inParens inner ∧ values = pieces.map Piece.value := by
  intro input values rest reads
  obtain ⟨_, split, inner, rfl, pieces, derived, listed, rfl⟩ :=
    Sound.between (Sound.commaRowTrailing sound) reads
  exact ⟨_, split, pieces, inner, derived, listed, rfl, rfl⟩

theorem sound_callExpr : (callExpr expr).Sound Level.atom.Derives := by
  intro input e rest reads
  obtain ⟨⟨name, args, note⟩, readsCall, accepted⟩ := reads_refine.mp reads
  simp only [reads_bind, reads_ident, reads_pure] at readsCall
  obtain ⟨_, _, ⟨_, rfl⟩, _, _, readsArgs, _, _, readsNote, ⟨⟩, rfl⟩ := readsCall
  obtain ⟨_, splitArgs, pieces, inner, derived, listed, rfl, rfl⟩ :=
    sound_arguments sound readsArgs
  obtain ⟨_, splitNote, isNote⟩ := reads_typeNote readsNote
  refine ⟨_, ?_, .call derived listed isNote (callOf_eq_ok_iff.mp accepted)⟩
  simp [splitArgs, splitNote]

theorem sound_atom : (Grammar.atom expr).Sound Level.atom.Derives := by
  apply Sound.choice
  simp only [List.forall_mem_cons]
  exact ⟨sound_literal, sound_castExpr sound, sound_loadExpr sound, sound_callExpr sound,
    sound_varExpr, sound_parenthesized sound, by simp⟩

theorem sound_signed : (Grammar.signed expr).Sound Level.signed.Derives := by
  intro input e rest reads
  simp only [signed_eq, reads_bind, reads_pure] at reads
  obtain ⟨signs, _, readsSigns, base, _, readsBase, rfl, rfl⟩ := reads
  obtain ⟨_, splitSigns, rfl⟩ := sound_signs readsSigns
  obtain ⟨ts, splitBase, derived⟩ := sound_atom sound readsBase
  refine ⟨signs.map Sign.token ++ ts, by simp [splitSigns, splitBase], ?_⟩
  have operand : Level.signed.Derives ts base := .operand (by decide) derived
  exact operand.signs signs

theorem sound_parserAt (l : Level) : (l.parser expr).Sound l.Derives := by
  induction l using Level.fromTightest with
  | atom => exact sound_atom sound
  | signed _ => exact sound_signed sound
  | level l notSigned notAtom inductionHypothesis =>
    exact sound_level notSigned notAtom inductionHypothesis

omit sound in
theorem sound_expr (depth : Nat) : (Grammar.expr depth).Sound IsExpr := by
  induction depth with
  | zero =>
    intro input e rest reads
    cases reads
  | succ depth inductionHypothesis => exact sound_parserAt inductionHypothesis .disjunction

end Soundness

namespace Level

def rank : Level → Nat
  | atom => 0
  | signed => 1
  | product => 2
  | sum => 3
  | comparison => 4
  | conjunction => 5
  | disjunction => 6

/-- The rank of the level that goes on when the symbol follows a phrase of it. No level goes on
at a symbol that is neither an operator nor part of an atom. -/
def rankAt : Symbol → Nat
  | .leftParen | .colon => 0
  | .star | .slash | .percent => 2
  | .plus | .minus => 3
  | .equal | .notEqual | .less | .lessEqual | .greater | .greaterEqual => 4
  | .and => 5
  | .or => 6
  | _ => 7

/-- Nothing of the level or a tighter one goes on at `us`. -/
def EndsAt (l : Level) (us : List Token) : Prop :=
  ∀ sign, us.head? = some (.symbol sign) → l.rank < rankAt sign

theorem endsAt_symbol {l : Level} {sign : Symbol} (looser : l.rank < rankAt sign)
    (us : List Token) : l.EndsAt (.symbol sign :: us) := by
  intro found isHead
  cases isHead
  exact looser

theorem EndsAt.operand {l : Level} {us : List Token} (ends : l.EndsAt us) :
    l.operand.EndsAt us := by
  have tighter : l.operand.rank ≤ l.rank := by cases l <;> decide
  exact fun sign isHead => Nat.lt_of_le_of_lt tighter (ends sign isHead)

theorem rankAt_operator {l : Level} {sign : Symbol} {op : BinaryOp}
    (isOperator : (sign, op) ∈ l.operators) :
    l.operand.rank < rankAt sign ∧ rankAt sign = l.rank := by
  cases l <;> simp [operators] at isOperator <;> grind [rankAt, rank, operand]

theorem EndsAt.refuses_operator {l : Level} {us : List Token} (ends : l.EndsAt us) :
    l.operator.Refuses us := by
  apply refuses_oneOf
  intro t membership isHead
  rw [List.map_map] at membership
  obtain ⟨⟨sign, op⟩, isOperator, rfl⟩ := List.mem_map.mp membership
  have looser := ends sign isHead
  rw [(rankAt_operator isOperator).2] at looser
  exact Nat.lt_irrefl _ looser

theorem takes_operator {l : Level} {sign : Symbol} {op : BinaryOp}
    (isOperator : (sign, op) ∈ l.operators) (us : List Token) :
    l.operator.Takes [.symbol sign] op us := by
  have distinct :
      ((l.operators.map fun (sign, op) => (Token.symbol sign, op)).map Prod.fst).Nodup := by
    cases l <;> decide
  exact Takes.oneOf distinct (List.mem_map_of_mem isOperator) us

end Level

section Completeness

variable {us : List Token}

theorem takes_ident (name : String) (us : List Token) : ident.Takes [.ident name] name us := by
  apply Takes.accept
  rfl

theorem takes_ident_bind {β : Type} {next : String → Parser β} {name : String} {ts : List Token}
    {b : β} (takes : (next name).Takes ts b us) : (ident >>= next).Takes (.ident name :: ts) b us :=
  (takes_ident name _).bind takes

theorem refuses_ident (noName : ∀ name, us.head? ≠ some (.ident name)) : ident.Refuses us := by
  apply refuses_accept
  intro token isHead
  cases token with
  | ident name => exact absurd isHead (noName name)
  | _ => rfl

theorem takes_typeWord {word : String} {type : ScalarType}
    (known : ScalarType.ofKeyword? word = some type) (us : List Token) :
    typeWord.Takes [.ident word] type us :=
  (takes_ident word us).refine (by simp [known])

theorem takes_angleType {word : String} {type : ScalarType}
    (known : ScalarType.ofKeyword? word = some type) (us : List Token) :
    angleType.Takes (angled word) type us :=
  (takes_typeWord known _).between

theorem TypeNote.takes {note : List Token} {type : ScalarType} (isNote : TypeNote note type)
    (ends : Level.atom.EndsAt us) :
    ∃ found, (optional typeNote).Takes note found us ∧ found.getD .default = type := by
  cases isNote with
  | missing =>
    refine ⟨none, Refuses.optional ?_, rfl⟩
    apply Refuses.bind
    apply refuses_exactly
    exact fun isHead => Nat.lt_irrefl _ (ends _ isHead)
  | stated known =>
    have noted : typeNote.Takes _ _ us := .bind (.exactly _ _) (takes_typeWord known us)
    exact ⟨_, noted.optional, rfl⟩

variable {expr : Parser Expr}

theorem refuses_expr (sound : expr.Sound IsExpr) {t : Token} (noStart : startsExpr t = false)
    (us : List Token) : expr.Refuses (t :: us) := by
  apply sound.refuses
  rintro ts e rest split derived
  obtain ⟨t', ts', rfl, starts⟩ := derived.start
  cases split
  rw [noStart] at starts
  cases starts

theorem takes_arguments (sound : expr.Sound IsExpr) {args : List (Piece Expr)} {ts : List Token}
    (takes : ∀ arg ∈ args, ∀ us, Level.disjunction.EndsAt us →
      expr.Takes arg.tokens arg.value us) (listed : Piece.Listed args ts) (us : List Token) :
    (arguments expr).Takes (inParens ts) (args.map Piece.value) us := by
  apply Takes.between
  apply Takes.commaRowTrailing takes
  · exact Level.endsAt_symbol (by decide)
  · exact listed
  · exact Level.endsAt_symbol (by decide) _
  · simp
  · exact refuses_expr sound rfl _

/-- The level reads its phrases of at most `n` tokens, wherever they end. -/
def Level.CompleteUpTo (expr : Parser Expr) (n : Nat) (l : Level) : Prop :=
  ∀ ⦃ts e us⦄, ts.length ≤ n → l.Derives ts e → l.EndsAt us → (l.parser expr).Takes ts e us

variable {n : Nat}

theorem complete_level {l : Level} (notSigned : l ≠ .signed) (notAtom : l ≠ .atom)
    (operand : l.operand.CompleteUpTo expr n) : l.CompleteUpTo expr n := by
  intro ts e us short derived ends
  obtain ⟨first, a, links, firstDerived, linksDerived, rfl, rfl⟩ :=
    derived.exists_links notSigned notAtom
  rw [List.length_append] at short
  -- A link is read up to the next one, which starts with an operator of this level.
  have next : ∀ link ∈ links, ∀ us, l.operand.EndsAt (link.tokens ++ us) := by
    intro link membership us
    obtain ⟨sign, right, isOperator, isLink, _⟩ := linksDerived link membership
    rw [isLink]
    exact Level.endsAt_symbol (Level.rankAt_operator isOperator).1 _
  have takesLinks : (many (do
      let op ← l.operator
      let right ← l.operand.parser expr
      return (op, right))).Takes (links.flatMap Piece.tokens) (links.map Piece.value) us := by
    apply Takes.many l.operand.EndsAt
    · intro link membership us ends
      obtain ⟨sign, right, isOperator, isLink, derived⟩ := linksDerived link membership
      have shortLink := length_tokens_le membership Piece.tokens
      rw [isLink, List.length_cons] at shortLink
      rw [isLink]
      have takesRight := operand (by omega) derived ends
      exact (Level.takes_operator isOperator _).bind (takesRight.last rfl)
    · intro link membership
      obtain ⟨sign, right, _, isLink, _⟩ := linksDerived link membership
      rw [isLink]
      exact List.cons_ne_nil _ _
    · exact next
    · exact ends.operand
    · exact ends.refuses_operator.bind _
  have firstEnds : l.operand.EndsAt (links.flatMap Piece.tokens ++ us) := by
    cases links with
    | nil => exact ends.operand
    | cons link links =>
      rw [List.flatMap_cons, List.append_assoc]
      exact next link (by simp) _
  rw [l.parser_eq_level expr notSigned notAtom]
  exact (operand (by omega) firstDerived firstEnds).bind (takesLinks.last rfl)

theorem takes_signs (found : List Sign) {t : Token} (isAtom : startsAtom t = true)
    (us : List Token) : signs.Takes (found.map Sign.token) found (t :: us) := by
  have one : ∀ (sign : Sign) (us : List Token),
      (oneOf [(.symbol .minus, .minus), (.symbol .bang, .bang)]).Takes [sign.token] sign us := by
    intro sign us
    apply Takes.oneOf (by decide)
    cases sign <;> decide
  have stops : (oneOf [(.symbol .minus, Sign.minus), (.symbol .bang, .bang)]).Refuses
      (t :: us) := by
    apply refuses_oneOf
    simp only [List.map_cons, List.map_nil, List.forall_mem_cons]
    refine ⟨?_, ?_, List.forall_mem_nil _⟩
    · rintro ⟨⟩
      cases isAtom
    · rintro ⟨⟩
      cases isAtom
  exact Takes.manyOf one found stops

theorem complete_signed (atom : Level.atom.CompleteUpTo expr n) :
    Level.signed.CompleteUpTo expr n := by
  intro ts e us short derived ends
  obtain ⟨signs, base, a, baseDerived, rfl, rfl⟩ := derived.exists_signs
  obtain ⟨t, rest, rfl, isAtom⟩ := baseDerived.atom_start
  rw [List.length_append] at short
  have takesBase := atom (by omega) baseDerived ends.operand
  rw [Level.parser, signed_eq]
  exact (takes_signs signs isAtom _).bind (takesBase.last rfl)

theorem takes_parenthesized {ts : List Token} {e : Expr}
    (takes : ∀ us, Level.disjunction.EndsAt us → expr.Takes ts e us) (us : List Token) :
    (parenthesized expr).Takes (inParens ts) e us :=
  (takes _ (Level.endsAt_symbol (by decide) _)).between

theorem takes_castExpr {word : String} {type : ScalarType} {ts : List Token} {e : Expr}
    (known : ScalarType.ofKeyword? word = some type)
    (takes : ∀ us, Level.disjunction.EndsAt us → expr.Takes ts e us) (us : List Token) :
    (castExpr expr).Takes (.keyword .cast :: (angled word ++ inParens ts)) (.cast type e) us := by
  apply Takes.exactly_bind
  apply Takes.bind (takes_angleType known _)
  exact (takes_parenthesized takes us).last rfl

theorem takes_loadExpr {word name : String} {type : ScalarType} {ts : List Token} {e : Expr}
    (known : ScalarType.ofKeyword? word = some type)
    (takes : ∀ us, Level.disjunction.EndsAt us → expr.Takes ts e us) (us : List Token) :
    (loadExpr expr).Takes
      (.keyword .load :: (angled word ++ inParens (.ident name :: .symbol .comma :: ts)))
      (.load name type e) us := by
  apply Takes.exactly_bind
  apply Takes.bind (takes_angleType known _)
  apply Takes.last
  · apply Takes.between
    apply takes_ident_bind
    apply Takes.exactly_bind
    exact (takes _ (Level.endsAt_symbol (by decide) _)).last rfl
  · rfl

theorem takes_callExpr (sound : expr.Sound IsExpr) {name : String} {args : List (Piece Expr)}
    {ts note us : List Token} {type : ScalarType} {e : Expr}
    (takes : ∀ arg ∈ args, ∀ us, Level.disjunction.EndsAt us →
      expr.Takes arg.tokens arg.value us) (listed : Piece.Listed args ts)
    (isNote : TypeNote note type) (means : CallMeans type name (args.map Piece.value) e)
    (ends : Level.atom.EndsAt us) :
    (callExpr expr).Takes (.ident name :: (inParens ts ++ note)) e us := by
  obtain ⟨found, takesNote, rfl⟩ := isNote.takes ends
  apply Takes.refine (a := (name, args.map Piece.value, found)) _ (callOf_eq_ok_iff.mpr means)
  apply takes_ident_bind
  apply Takes.bind (takes_arguments sound takes listed _)
  exact takesNote.last rfl

theorem takes_varExpr {note : List Token} {type : ScalarType} (isNote : TypeNote note type)
    (ends : Level.atom.EndsAt us) (name : String) :
    varExpr.Takes (.ident name :: note) (.var name type) us := by
  obtain ⟨found, takesNote, rfl⟩ := isNote.takes ends
  exact (takes_ident name _).bind (takesNote.last rfl)

theorem refuses_literal {t : Token} (noLiteral : t matches .ident _ | .keyword _ | .symbol _)
    (us : List Token) : literal.Refuses (t :: us) := by
  apply refuses_accept
  rintro token ⟨⟩
  cases t <;> first | rfl | cases noLiteral

/-- A name starts neither a literal nor a cast nor a load. -/
theorem refused_at_name (name : String) (us : List Token) :
    ∀ p ∈ [literal, castExpr expr, loadExpr expr], p.Refuses (.ident name :: us) := by
  simp only [List.forall_mem_cons]
  refine ⟨refuses_literal rfl us, ?_, ?_, List.forall_mem_nil _⟩
  · exact (refuses_exactly (by simp)).bind _
  · exact (refuses_exactly (by simp)).bind _

theorem refuses_callExpr (name : String) (noParen : us.head? ≠ some (.symbol .leftParen)) :
    (callExpr expr).Refuses (.ident name :: us) := by
  apply Refuses.refine
  exact (takes_ident name us).bind_refuses ((refuses_between noParen).bind _)

theorem TypeNote.head_ne_leftParen {note : List Token} {type : ScalarType}
    (isNote : TypeNote note type) (ends : Level.atom.EndsAt us) :
    (note ++ us).head? ≠ some (.symbol .leftParen) := by
  cases isNote with
  | missing => exact fun isHead => Nat.lt_irrefl _ (ends _ isHead)
  | stated _ => simp

theorem complete_atom (sound : expr.Sound IsExpr)
    (shorter : ∀ ⦃ts e us⦄, ts.length < n → IsExpr ts e → Level.disjunction.EndsAt us →
      expr.Takes ts e us) : Level.atom.CompleteUpTo expr n := by
  intro ts e us short derived ends
  -- Literals are tried first; any other form is refused by those before it at its first tokens.
  have literal : literal.Takes ts e us → (Grammar.atom expr).Takes ts e us := fun takes =>
    takes.choice (List.forall_mem_nil _)
  cases derived with
  | operand notAtom _ => exact absurd rfl notAtom
  | binary isOperator _ _ => cases isOperator
  | int => exact literal (by apply Takes.accept; rfl)
  | single => exact literal (by apply Takes.accept; rfl)
  | double => exact literal (by apply Takes.accept; rfl)
  | string => exact literal (by apply Takes.accept; rfl)
  | @cast word type ts e known derived =>
    have inner : ts.length < n := by simp [inParens] at short; omega
    have refused : ∀ p ∈ [Grammar.literal],
        p.Refuses (.keyword .cast :: (angled word ++ inParens ts) ++ us) := by
      simpa using refuses_literal rfl _
    exact Takes.choice (takes_castExpr known (fun _ => shorter inner derived) us) refused
  | @load word type name ts index known derived =>
    have inner : ts.length < n := by simp [inParens] at short; omega
    have refused : ∀ p ∈ [Grammar.literal, castExpr expr], p.Refuses (.keyword .load ::
        (angled word ++ inParens (.ident name :: .symbol .comma :: ts)) ++ us) := by
      simp only [List.forall_mem_cons]
      exact ⟨refuses_literal rfl _, (refuses_exactly (by simp)).bind _, List.forall_mem_nil _⟩
    exact Takes.choice (takes_loadExpr known (fun _ => shorter inner derived) us) refused
  | @call name args ts note type e derived listed isNote means =>
    have inner : ∀ arg ∈ args, ∀ us, Level.disjunction.EndsAt us →
        expr.Takes arg.tokens arg.value us := by
      intro arg membership us ends
      have inRow := listed.length_le membership
      simp [inParens] at short
      exact shorter (by omega) (derived arg membership) ends
    exact Takes.choice (takes_callExpr sound inner listed isNote means ends)
      (refused_at_name name _)
  | @var name note type isNote =>
    have noCall : (callExpr expr).Refuses (.ident name :: note ++ us) :=
      refuses_callExpr name (isNote.head_ne_leftParen ends)
    have refused : ∀ p ∈ [Grammar.literal, castExpr expr, loadExpr expr] ++ [callExpr expr],
        p.Refuses (.ident name :: note ++ us) :=
      List.forall_mem_append.mpr ⟨refused_at_name name _, by simpa using noCall⟩
    exact Takes.choice (takes_varExpr isNote ends name) refused
  | @parens ts e derived =>
    have inner : ts.length < n := by simp [inParens] at short; omega
    have refused : ∀ p ∈ [Grammar.literal, castExpr expr, loadExpr expr, callExpr expr, varExpr],
        p.Refuses (inParens ts ++ us) := by
      have noName : ident.Refuses (inParens ts ++ us) := refuses_ident (by simp [inParens])
      simp only [List.forall_mem_cons]
      refine ⟨refuses_literal rfl _, ?_, ?_, ?_, ?_, List.forall_mem_nil _⟩
      · exact (refuses_exactly (by simp [inParens])).bind _
      · exact (refuses_exactly (by simp [inParens])).bind _
      · exact (noName.bind _).refine _
      · exact noName.bind _
    exact Takes.choice (takes_parenthesized (fun _ => shorter inner derived) us) refused

/-- Every level reads its phrases of at most as many tokens as the parser is deep. -/
theorem complete_parserAt (sound : expr.Sound IsExpr)
    (shorter : ∀ ⦃ts e us⦄, ts.length < n → IsExpr ts e → Level.disjunction.EndsAt us →
      expr.Takes ts e us) (l : Level) : l.CompleteUpTo expr n := by
  induction l using Level.fromTightest with
  | atom => exact complete_atom sound shorter
  | signed inductionHypothesis => exact complete_signed inductionHypothesis
  | level l notSigned notAtom inductionHypothesis =>
    exact complete_level notSigned notAtom inductionHypothesis

/-- Expressions of fewer tokens than the parser is deep are read wherever they end. -/
theorem takes_expr (depth : Nat) : ∀ ⦃ts e us⦄, ts.length < depth → IsExpr ts e →
    Level.disjunction.EndsAt us → (Grammar.expr depth).Takes ts e us := by
  induction depth with
  | zero =>
    intro ts e us short
    exact absurd short (Nat.not_lt_zero _)
  | succ depth inductionHypothesis =>
    intro ts e us short derived ends
    exact complete_parserAt (sound_expr depth) inductionHypothesis .disjunction
      (Nat.le_of_lt_succ short) derived ends

end Completeness

end StreamSynth.Grammar
