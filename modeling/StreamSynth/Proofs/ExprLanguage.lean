import StreamSynth.Grammar.Expr
import StreamSynth.Proofs.Rows

/-!
# The language of expressions

`Level.Derives` is the grammar of expressions, stated by its rules: five left-associative levels
over signs and atoms. A phrase of an operator level is a chain of operands, a signed phrase an
atom behind signs, and the first token tells that an expression starts.
-/

namespace StreamSynth.Grammar

inductive Level where
  | disjunction
  | conjunction
  | comparison
  | sum
  | product
  | signed
  | atom
  deriving DecidableEq

namespace Level

def operand : Level → Level
  | disjunction => conjunction
  | conjunction => comparison
  | comparison => sum
  | sum => product
  | product => signed
  | signed => atom
  | atom => atom

def operators : Level → List (Symbol × BinaryOp)
  | disjunction => [(.or, .or)]
  | conjunction => [(.and, .and)]
  | comparison =>
    [(.equal, .eq), (.notEqual, .ne), (.lessEqual, .le), (.greaterEqual, .ge), (.less, .lt),
      (.greater, .gt)]
  | sum => [(.plus, .add), (.minus, .sub)]
  | product => [(.star, .mul), (.slash, .div), (.percent, .mod)]
  | signed => []
  | atom => []

/-- What holds of atoms, of signs before them and of each level when it holds of its operands
holds of every level. -/
@[elab_as_elim]
theorem fromTightest {motive : Level → Prop} (atom : motive atom)
    (signed : motive .atom → motive signed)
    (level : ∀ l, l ≠ .signed → l ≠ .atom → motive l.operand → motive l) (l : Level) :
    motive l := by
  have product : motive .product := level .product (by decide) (by decide) (signed atom)
  have sum : motive .sum := level .sum (by decide) (by decide) product
  have comparison : motive .comparison := level .comparison (by decide) (by decide) sum
  have conjunction : motive .conjunction :=
    level .conjunction (by decide) (by decide) comparison
  cases l with
  | disjunction => exact level .disjunction (by decide) (by decide) conjunction
  | conjunction => exact conjunction
  | comparison => exact comparison
  | sum => exact sum
  | product => exact product
  | signed => exact signed atom
  | atom => exact atom

end Level

def angled (word : String) : List Token := [.symbol .less, .ident word, .symbol .greater]

def inParens (ts : List Token) : List Token := .symbol .leftParen :: (ts ++ [.symbol .rightParen])

/-- A type after a colon, which may be missing. -/
inductive TypeNote : List Token → ScalarType → Prop
  | missing : TypeNote [] .default
  | stated {word type} : ScalarType.ofKeyword? word = some type →
      TypeNote [.symbol .colon, .ident word] type

/-- The expression that a call stands for: `min`, `max` and `select` are operators. -/
inductive CallMeans (type : ScalarType) : String → List Expr → Expr → Prop
  | min {a b} : CallMeans type "min" [a, b] (.binary .min a b)
  | max {a b} : CallMeans type "max" [a, b] (.binary .max a b)
  | select {condition whenTrue whenFalse} :
      CallMeans type "select" [condition, whenTrue, whenFalse]
        (.select condition whenTrue whenFalse)
  | call {name args} : name ≠ "min" → name ≠ "max" → name ≠ "select" →
      CallMeans type name args (.call name type args)

/-- The expression with a minus before it: a constant of the other sign, or a difference. -/
inductive Negated : Expr → Expr → Prop
  | int {value type} : Negated (.int value type) (.int (-value) type)
  | float {value type} : Negated (.float value type) (.float value.neg type)
  | other {e} : (∀ value type, e ≠ .int value type) → (∀ value type, e ≠ .float value type) →
      Negated e (.binary .sub (.ofInt 0) e)

/-- The tokens form the expression, on the given level. -/
inductive Level.Derives : Level → List Token → Expr → Prop
  | operand {l ts e} : l ≠ .atom → Derives l.operand ts e → Derives l ts e
  | binary {l : Level} {sign op left right a b} : (sign, op) ∈ l.operators → Derives l left a →
      Derives l.operand right b → Derives l (left ++ .symbol sign :: right) (.binary op a b)
  | minus {ts e negated} : Derives .signed ts e → Negated e negated →
      Derives .signed (.symbol .minus :: ts) negated
  | bang {ts e} : Derives .signed ts e → Derives .signed (.symbol .bang :: ts) (.not e)
  | int {value} : Derives .atom [.int value] (.ofInt value)
  | single {value} : Derives .atom [.single value] (.float value (.float 32))
  | double {value} : Derives .atom [.double value] (.float value (.float 64))
  | string {text} : Derives .atom [.string text] (.string text)
  | cast {word type ts e} : ScalarType.ofKeyword? word = some type → Derives .disjunction ts e →
      Derives .atom (.keyword .cast :: (angled word ++ inParens ts)) (.cast type e)
  | load {word type name ts index} : ScalarType.ofKeyword? word = some type →
      Derives .disjunction ts index →
      Derives .atom (.keyword .load ::
        (angled word ++ inParens (.ident name :: .symbol .comma :: ts))) (.load name type index)
  | call {name args ts note type e} :
      (∀ arg : Piece Expr, arg ∈ args → Derives .disjunction arg.tokens arg.value) →
      Piece.Listed args ts → TypeNote note type →
      CallMeans type name (args.map Piece.value) e →
      Derives .atom (.ident name :: (inParens ts ++ note)) e
  | var {name note type} : TypeNote note type → Derives .atom (.ident name :: note) (.var name type)
  | parens {ts e} : Derives .disjunction ts e → Derives .atom (inParens ts) e

abbrev IsExpr : List Token → Expr → Prop := Level.disjunction.Derives

def Sign.token : Sign → Token
  | .minus => .symbol .minus
  | .bang => .symbol .bang

theorem negated_iff {e negated : Expr} : Negated e negated ↔ negate e = negated := by
  constructor
  · intro isNegated
    cases isNegated with
    | int => rfl
    | float => rfl
    | other notInt notFloat =>
      unfold negate
      split
      · exact absurd rfl (notInt _ _)
      · exact absurd rfl (notFloat _ _)
      · rfl
  · rintro rfl
    unfold negate
    split
    · exact .int
    · exact .float
    · next notInt notFloat => exact .other notInt notFloat

theorem Level.Derives.signs {ts : List Token} {e : Expr} (derived : Level.signed.Derives ts e)
    (signs : List Sign) :
    Level.signed.Derives (signs.map Sign.token ++ ts) (signs.foldr applySign e) := by
  induction signs with
  | nil => exact derived
  | cons sign signs inductionHypothesis =>
    cases sign with
    | minus => exact .minus inductionHypothesis (negated_iff.mpr rfl)
    | bang => exact .bang inductionHypothesis

/-- Operators with right operands behind a first operand. -/
theorem Level.Derives.links {l : Level} {links : List (Piece (BinaryOp × Expr))}
    (derivedLinks : ∀ link ∈ links, ∃ sign right, (sign, link.value.1) ∈ l.operators ∧
      link.tokens = .symbol sign :: right ∧ l.operand.Derives right link.value.2)
    {ts : List Token} {e : Expr} (derived : l.Derives ts e) :
    l.Derives (ts ++ links.flatMap Piece.tokens)
      ((links.map Piece.value).foldl (fun left (op, right) => .binary op left right) e) := by
  induction links generalizing ts e with
  | nil => simpa using derived
  | cons link links inductionHypothesis =>
    obtain ⟨sign, right, isOperator, isLink, derivedRight⟩ := derivedLinks link (by simp)
    have longer := inductionHypothesis
      (fun link membership => derivedLinks link (List.mem_cons_of_mem _ membership))
      (derived.binary isOperator derivedRight)
    simpa [isLink] using longer

def startsAtom : Token → Bool
  | .keyword .cast | .keyword .load | .symbol .leftParen => true
  | .int _ | .single _ | .double _ | .string _ | .ident _ => true
  | _ => false

def startsExpr : Token → Bool
  | .symbol .minus | .symbol .bang => true
  | t => startsAtom t

namespace Level.Derives

variable {l : Level} {ts : List Token} {e : Expr}

theorem atom_start (derived : Level.atom.Derives ts e) :
    ∃ t rest, ts = t :: rest ∧ startsAtom t = true := by
  cases derived with
  | operand notAtom _ => exact absurd rfl notAtom
  | binary isOperator _ _ => cases isOperator
  | _ => exact ⟨_, _, rfl, rfl⟩

theorem start (derived : l.Derives ts e) : ∃ t rest, ts = t :: rest ∧ startsExpr t = true := by
  induction derived with
  | operand _ _ inductionHypothesis => exact inductionHypothesis
  | binary _ _ _ left _ =>
    obtain ⟨t, rest, rfl, starts⟩ := left
    exact ⟨t, _, rfl, starts⟩
  | _ => exact ⟨_, _, rfl, rfl⟩

/-- A phrase of an operator level is a first operand with operators and operands behind it. -/
theorem exists_links (derived : l.Derives ts e) (notSigned : l ≠ .signed) (notAtom : l ≠ .atom) :
    ∃ (first : List Token) (a : Expr) (links : List (Piece (BinaryOp × Expr))),
      l.operand.Derives first a ∧
      (∀ link ∈ links, ∃ sign right, (sign, link.value.1) ∈ l.operators ∧
        link.tokens = .symbol sign :: right ∧ l.operand.Derives right link.value.2) ∧
      ts = first ++ links.flatMap Piece.tokens ∧
      e = (links.map Piece.value).foldl (fun left (op, right) => .binary op left right) a := by
  induction derived with
  | @operand l ts e _ operand _ => exact ⟨ts, e, [], operand, by simp, by simp, rfl⟩
  | @binary l sign op left right a b isOperator _ rightDerived leftLinks _ =>
    obtain ⟨first, c, links, firstDerived, linksDerived, rfl, rfl⟩ := leftLinks notSigned notAtom
    refine ⟨first, c, links ++ [⟨.symbol sign :: right, (op, b)⟩], firstDerived, ?_, by simp,
      by simp⟩
    intro link membership
    rcases List.mem_append.mp membership with earlier | last
    · exact linksDerived link earlier
    · rw [List.mem_singleton.mp last]
      exact ⟨sign, right, isOperator, rfl, rightDerived⟩
  | minus => exact absurd rfl notSigned
  | bang => exact absurd rfl notSigned
  | _ => exact absurd rfl notAtom

theorem exists_signs (derived : Level.signed.Derives ts e) :
    ∃ (signs : List Sign) (base : List Token) (a : Expr), Level.atom.Derives base a ∧
      ts = signs.map Sign.token ++ base ∧ e = signs.foldr applySign a := by
  generalize isSigned : Level.signed = l at derived
  induction derived with
  | @operand l ts e _ operand _ =>
    subst isSigned
    exact ⟨[], ts, e, operand, rfl, rfl⟩
  | binary isOperator _ _ _ _ =>
    subst isSigned
    cases isOperator
  | minus _ isNegated inductionHypothesis =>
    obtain ⟨signs, base, a, atom, rfl, rfl⟩ := inductionHypothesis rfl
    exact ⟨.minus :: signs, base, a, atom, rfl, (negated_iff.mp isNegated).symm⟩
  | bang _ inductionHypothesis =>
    obtain ⟨signs, base, a, atom, rfl, rfl⟩ := inductionHypothesis rfl
    exact ⟨.bang :: signs, base, a, atom, rfl, rfl⟩
  | _ => cases isSigned

end Level.Derives

end StreamSynth.Grammar
