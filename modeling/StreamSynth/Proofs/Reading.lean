import StreamSynth.Grammar.Outcome

/-!
# What parsers read

The laws of parsers on what they read, apart from what they note about misses. `Reads` tells what
one run gives. Seen on tokens alone, `Takes` says that a parser reads exactly the tokens `ts` when
the tokens `us` follow them, and `Refuses` that it fails in front of `ts`. In the other direction
`Sound` says that whatever a parser reads is a phrase of a language.
-/

namespace StreamSynth

/-- A stretch of tokens with the value that it stands for. -/
structure Piece (α : Type) where
  tokens : List Token
  value : α

theorem Piece.flatMap_tokens_eq_map {α : Type} {pieces : List (Piece α)} (written : α → Token)
    (single : ∀ piece ∈ pieces, piece.tokens = [written piece.value]) :
    pieces.flatMap Piece.tokens = (pieces.map Piece.value).map written := by
  calc pieces.flatMap Piece.tokens
      = pieces.flatMap fun piece => [written piece.value] := by
        rw [List.flatMap_def, List.flatMap_def, List.map_congr_left single]
    _ = (pieces.map Piece.value).map written := by
        rw [List.map_map, List.map_eq_flatMap]
        rfl

namespace Parser

variable {α β : Type}

def tokensOf (input : Input) : List Token := input.map Prod.fst

@[simp] theorem tokensOf_nil : tokensOf [] = [] := rfl

@[simp] theorem tokensOf_cons (entry : Token × Span) (rest : Input) :
    tokensOf (entry :: rest) = entry.1 :: tokensOf rest := rfl

@[simp] theorem tokensOf_append (first second : Input) :
    tokensOf (first ++ second) = tokensOf first ++ tokensOf second := List.map_append

theorem tokensOf_eq_append_iff {input : Input} {ts us : List Token} :
    tokensOf input = ts ++ us ↔
      ∃ read rest, input = read ++ rest ∧ tokensOf read = ts ∧ tokensOf rest = us :=
  List.map_eq_append_iff

theorem tokensOf_eq_cons_iff {input : Input} {t : Token} {ts : List Token} :
    tokensOf input = t :: ts ↔ ∃ span rest, input = (t, span) :: rest ∧ tokensOf rest = ts := by
  rw [tokensOf, List.map_eq_cons_iff]
  constructor
  · rintro ⟨⟨_, span⟩, rest, rfl, rfl, rfl⟩
    exact ⟨span, rest, rfl, rfl⟩
  · rintro ⟨span, rest, rfl, rfl⟩
    exact ⟨(t, span), rest, rfl, rfl, rfl⟩

/-- Run on `input`, the parser gives `value` and leaves `rest`. -/
def Reads (p : Parser α) (input : Input) (value : α) (rest : Input) : Prop :=
  (p input).result = some (value, rest)

def Refuses (p : Parser α) (ts : List Token) : Prop :=
  ∀ input, tokensOf input = ts → (p input).result = none

/-- The parser reads `value` from `ts` wherever `us` follows. -/
def Takes (p : Parser α) (ts : List Token) (value : α) (us : List Token) : Prop :=
  ∀ read rest, tokensOf read = ts → tokensOf rest = us → p.Reads (read ++ rest) value rest

def Sound (p : Parser α) (language : List Token → α → Prop) : Prop :=
  ∀ ⦃input value rest⦄, p.Reads input value rest →
    ∃ ts, tokensOf input = ts ++ tokensOf rest ∧ language ts value

theorem Reads.unique {p : Parser α} {input rest rest' : Input} {value value' : α}
    (one : p.Reads input value rest) (other : p.Reads input value' rest') :
    value = value' ∧ rest = rest' := by
  have same := one.symm.trans other
  simpa using same

theorem result_eq_none_iff {p : Parser α} {input : Input} :
    (p input).result = none ↔ ∀ value rest, ¬ p.Reads input value rest := by
  simp [Reads, Option.eq_none_iff_forall_ne_some]

theorem Sound.refuses {p : Parser α} {language : List Token → α → Prop} {us : List Token}
    (sound : p.Sound language)
    (noPhrase : ∀ ts value rest, us = ts ++ rest → ¬ language ts value) : p.Refuses us := by
  rintro input rfl
  apply result_eq_none_iff.mpr
  intro value rest reads
  obtain ⟨ts, split, phrase⟩ := sound reads
  exact noPhrase ts value _ split phrase

section Basic

variable {input rest : Input} {ts us vs : List Token} {a : α} {b : β}

theorem reads_pure {a' : α} : (pure a : Parser α).Reads input a' rest ↔ a = a' ∧ input = rest := by
  change some (a, input) = some (a', rest) ↔ _
  simp

theorem reads_bind {p : Parser α} {next : α → Parser β} :
    (p >>= next).Reads input b rest ↔
      ∃ a middle, p.Reads input a middle ∧ (next a).Reads middle b rest := by
  change (andThen p next input).result = _ ↔ _
  rw [andThen]
  cases first : (p input).result with
  | none => simp [Reads, first]
  | some found =>
    obtain ⟨value, middle⟩ := found
    constructor
    · exact fun second => ⟨value, middle, first, second⟩
    · rintro ⟨a, m, reads, second⟩
      obtain ⟨rfl, rfl⟩ := Reads.unique first reads
      exact second

theorem Takes.pure (a : α) (us : List Token) : (pure a : Parser α).Takes [] a us := by
  intro read rest isRead _
  obtain rfl : read = [] := List.map_eq_nil_iff.mp isRead
  exact reads_pure.mpr ⟨rfl, rfl⟩

theorem Takes.bind {p : Parser α} {next : α → Parser β} (first : p.Takes ts a (us ++ vs))
    (second : (next a).Takes us b vs) : (p >>= next).Takes (ts ++ us) b vs := by
  intro read rest isRead isRest
  obtain ⟨one, other, rfl, isOne, isOther⟩ := tokensOf_eq_append_iff.mp isRead
  rw [List.append_assoc]
  have follows : tokensOf (other ++ rest) = us ++ vs := by simp [isOther, isRest]
  exact reads_bind.mpr ⟨a, _, first _ _ isOne follows, second _ _ isOther isRest⟩

theorem Takes.bind_nil {p : Parser α} {next : α → Parser β} (first : p.Takes ts a us)
    (second : (next a).Takes [] b us) : (p >>= next).Takes ts b us := by
  have both : (p >>= next).Takes (ts ++ []) b us := Takes.bind first second
  rwa [List.append_nil] at both

theorem Takes.last {p : Parser α} {next : α → Parser β} (takes : p.Takes ts a us)
    (returns : next a = Pure.pure b) : (p >>= next).Takes ts b us := by
  apply takes.bind_nil
  rw [returns]
  exact Takes.pure b us

theorem Refuses.bind {p : Parser α} (refuses : p.Refuses ts) (next : α → Parser β) :
    (p >>= next).Refuses ts := by
  intro input isInput
  apply result_eq_none_iff.mpr
  intro value rest reads
  obtain ⟨a, middle, first, _⟩ := reads_bind.mp reads
  exact result_eq_none_iff.mp (refuses input isInput) a middle first

/-- What is read first may also be what the rest is refused after. -/
theorem Takes.bind_refuses {p : Parser α} {next : α → Parser β} (first : p.Takes ts a us)
    (second : (next a).Refuses us) : (p >>= next).Refuses (ts ++ us) := by
  intro input isInput
  obtain ⟨read, rest, rfl, isRead, isRest⟩ := tokensOf_eq_append_iff.mp isInput
  apply result_eq_none_iff.mpr
  intro value left reads
  obtain ⟨a', middle, readsFirst, readsSecond⟩ := reads_bind.mp reads
  obtain ⟨rfl, rfl⟩ := (first read rest isRead isRest).unique readsFirst
  exact result_eq_none_iff.mp (second rest isRest) value left readsSecond

end Basic

section Tokens

variable {input rest : Input} {us : List Token} {a : α} {b : β} {entry : Expected}
  {view : Token → Option α}

theorem reads_accept : (accept entry view).Reads input a rest ↔
    ∃ token span, input = (token, span) :: rest ∧ view token = some a := by
  cases input with
  | nil => simp [Reads, accept, expected]
  | cons head tail =>
    obtain ⟨token, span⟩ := head
    cases seen : view token with
    | none =>
      simp only [Reads, accept, seen, expected, List.cons.injEq, Prod.mk.injEq]
      constructor
      · intro impossible
        cases impossible
      · rintro ⟨_, _, ⟨⟨rfl, rfl⟩, rfl⟩, accepted⟩
        rw [seen] at accepted
        cases accepted
    | some value =>
      simp only [Reads, accept, seen, Option.some.injEq, Prod.mk.injEq, List.cons.injEq]
      constructor
      · rintro ⟨rfl, rfl⟩
        exact ⟨token, span, ⟨⟨rfl, rfl⟩, rfl⟩, seen⟩
      · rintro ⟨_, _, ⟨⟨rfl, rfl⟩, rfl⟩, accepted⟩
        rw [seen] at accepted
        exact ⟨Option.some.inj accepted, rfl⟩

theorem Takes.accept {token : Token} (accepted : view token = some a) (us : List Token) :
    (accept entry view).Takes [token] a us := by
  intro read rest isRead _
  obtain ⟨span, tail, rfl, isTail⟩ := tokensOf_eq_cons_iff.mp isRead
  obtain rfl : tail = [] := List.map_eq_nil_iff.mp isTail
  exact reads_accept.mpr ⟨token, span, rfl, accepted⟩

theorem refuses_accept (refused : ∀ token, us.head? = some token → view token = none) :
    (accept entry view).Refuses us := by
  rintro input rfl
  apply result_eq_none_iff.mpr
  intro value rest reads
  obtain ⟨token, span, rfl, accepted⟩ := reads_accept.mp reads
  simp [refused token rfl] at accepted

variable {token : Token} {u : Unit}

theorem reads_exactly : (exactly token).Reads input u rest ↔
    ∃ span, input = (token, span) :: rest := by
  rw [exactly, reads_accept]
  constructor
  · rintro ⟨found, span, rfl, accepted⟩
    split at accepted
    · next same => exact ⟨span, by rw [same]⟩
    · cases accepted
  · rintro ⟨span, rfl⟩
    exact ⟨token, span, rfl, by simp⟩

theorem Takes.exactly (token : Token) (us : List Token) : (exactly token).Takes [token] () us :=
  .accept (by simp) us

theorem Takes.exactly_bind {β : Type} {next : Unit → Parser β} {ts : List Token} {b : β}
    (takes : (next ()).Takes ts b us) : (Parser.exactly token >>= next).Takes (token :: ts) b us :=
  (Takes.exactly token _).bind takes

theorem refuses_exactly (differs : us.head? ≠ some token) : (exactly token).Refuses us := by
  apply refuses_accept
  intro found isHead
  apply if_neg
  rintro rfl
  exact differs isHead

theorem Sound.exactly (token : Token) :
    (Parser.exactly token).Sound fun ts _ => ts = [token] := by
  intro input value rest reads
  obtain ⟨span, rfl⟩ := reads_exactly.mp reads
  exact ⟨[token], rfl, rfl⟩

end Tokens

theorem reads_atEnd {input rest : Input} {u : Unit} :
    atEnd.Reads input u rest ↔ input = [] ∧ rest = [] := by
  cases input with
  | nil => simp [Reads, atEnd, eq_comm]
  | cons entry input => simp [Reads, atEnd, expected]

section Choice

variable {input rest : Input} {ts us : List Token} {a : α} {p : Parser α}

theorem exists_reads_of_choice {ps : List (Parser α)} (reads : (choice ps).Reads input a rest) :
    ∃ p ∈ ps, p.Reads input a rest := by
  fun_induction choice ps with
  | case1 => cases reads
  | case2 p => exact ⟨p, by simp, reads⟩
  | case3 p q ps inductionHypothesis =>
    unfold Reads orElse at reads
    cases first : (p input).result with
    | some found =>
      simp only [first] at reads
      exact ⟨p, by simp, by rw [Reads, first, reads]⟩
    | none =>
      simp only [first] at reads
      obtain ⟨later, membership, readsLater⟩ := inductionHypothesis reads
      exact ⟨later, List.mem_cons_of_mem _ membership, readsLater⟩

theorem Sound.choice {ps : List (Parser α)} {language : List Token → α → Prop}
    (sound : ∀ p ∈ ps, p.Sound language) : (choice ps).Sound language := by
  intro input value rest reads
  obtain ⟨p, membership, readsOne⟩ := exists_reads_of_choice reads
  exact sound p membership readsOne

theorem Takes.choice {before after : List (Parser α)} (takes : p.Takes ts a us)
    (refuses : ∀ q ∈ before, q.Refuses (ts ++ us)) :
    (choice (before ++ p :: after)).Takes ts a us := by
  intro read rest isRead isRest
  have readsP : p.Reads (read ++ rest) a rest := takes read rest isRead isRest
  induction before with
  | nil =>
    cases after with
    | nil => exact readsP
    | cons q after =>
      rw [Reads] at readsP
      simp [Reads, Parser.choice, orElse, readsP]
  | cons q before inductionHypothesis =>
    have refused := refuses q (by simp) (read ++ rest) (by simp [isRead, isRest])
    have readsLater := inductionHypothesis fun q membership =>
      refuses q (List.mem_cons_of_mem _ membership)
    cases before with
    | nil => simpa [Reads, Parser.choice, orElse, refused] using readsLater
    | cons q' before => simpa [Reads, Parser.choice, orElse, refused] using readsLater

theorem refuses_choice {ps : List (Parser α)} (refuses : ∀ p ∈ ps, p.Refuses us) :
    (choice ps).Refuses us := by
  intro input isInput
  apply result_eq_none_iff.mpr
  intro value rest reads
  obtain ⟨p, membership, readsOne⟩ := exists_reads_of_choice reads
  exact result_eq_none_iff.mp (refuses p membership input isInput) value rest readsOne

end Choice

section OneOf

variable {table : List (Token × α)} {us : List Token} {t : Token} {a : α}

def oneOf (table : List (Token × α)) : Parser α :=
  choice (table.map fun (t, a) => do
    exactly t
    return a)

theorem Sound.oneOf (table : List (Token × α)) :
    (Parser.oneOf table).Sound fun ts a => ∃ t, (t, a) ∈ table ∧ ts = [t] := by
  apply Sound.choice
  intro p membership
  obtain ⟨⟨t, a⟩, inTable, rfl⟩ := List.mem_map.mp membership
  intro input found rest reads
  simp only [reads_bind, reads_exactly, reads_pure] at reads
  obtain ⟨_, _, ⟨span, rfl⟩, rfl, rfl⟩ := reads
  exact ⟨[t], rfl, t, inTable, rfl⟩

theorem Takes.oneOf (distinct : (table.map Prod.fst).Nodup) (inTable : (t, a) ∈ table)
    (us : List Token) : (Parser.oneOf table).Takes [t] a us := by
  obtain ⟨before, after, rfl⟩ := List.append_of_mem inTable
  rw [Parser.oneOf, List.map_append, List.map_cons]
  apply Takes.choice
  · exact (Takes.exactly t us).last rfl
  · intro p isBefore
    obtain ⟨⟨other, _⟩, otherBefore, rfl⟩ := List.mem_map.mp isBefore
    apply Refuses.bind
    apply refuses_exactly
    rintro ⟨⟩
    rw [List.map_append, List.nodup_append] at distinct
    exact distinct.2.2 t (List.mem_map_of_mem otherBefore) t (by simp) rfl

theorem refuses_oneOf (differs : ∀ t ∈ table.map Prod.fst, us.head? ≠ some t) :
    (Parser.oneOf table).Refuses us := by
  apply refuses_choice
  intro p membership
  obtain ⟨⟨t, a⟩, inTable, rfl⟩ := List.mem_map.mp membership
  exact (refuses_exactly (differs t (List.mem_map_of_mem inTable))).bind _

end OneOf

section Optional

variable {input rest : Input} {ts us : List Token} {a : α} {p : Parser α}

theorem reads_optional {found : Option α} (reads : (optional p).Reads input found rest) :
    (∃ a, found = some a ∧ p.Reads input a rest) ∨ found = none ∧ rest = input := by
  unfold Reads optional at reads
  cases first : (p input).result with
  | none =>
    simp only [first, Option.some.injEq, Prod.mk.injEq] at reads
    exact .inr ⟨reads.1.symm, reads.2.symm⟩
  | some pair =>
    obtain ⟨a, middle⟩ := pair
    simp only [first, Option.some.injEq, Prod.mk.injEq] at reads
    obtain ⟨rfl, rfl⟩ := reads
    exact .inl ⟨a, rfl, first⟩

theorem Takes.optional (takes : p.Takes ts a us) : (optional p).Takes ts (some a) us := by
  intro read rest isRead isRest
  have reads := takes read rest isRead isRest
  rw [Reads] at reads
  simp [Reads, Parser.optional, reads]

theorem Refuses.optional (refuses : p.Refuses us) : (optional p).Takes [] none us := by
  intro read rest isRead isRest
  obtain rfl : read = [] := List.map_eq_nil_iff.mp isRead
  simp [Reads, Parser.optional, refuses rest isRest]

end Optional

section Many

variable {input rest : Input} {us : List Token} {p : Parser α}

def Repeated (language : List Token → α → Prop) (ts : List Token) (values : List α) : Prop :=
  ∃ pieces : List (Piece α), (∀ piece ∈ pieces, language piece.tokens piece.value) ∧
    ts = pieces.flatMap Piece.tokens ∧ values = pieces.map Piece.value

theorem Sound.repeatUpTo {language : List Token → α → Prop} (sound : p.Sound language)
    (bound : Nat) : (repeatUpTo p bound).Sound (Repeated language) := by
  intro input values rest reads
  induction bound generalizing input values with
  | zero =>
    cases reads
    exact ⟨[], rfl, [], by simp⟩
  | succ bound inductionHypothesis =>
    unfold Reads Parser.repeatUpTo at reads
    cases first : (p input).result with
    | none =>
      simp only [first, Option.some.injEq, Prod.mk.injEq] at reads
      obtain ⟨rfl, rfl⟩ := reads
      exact ⟨[], rfl, [], by simp⟩
    | some found =>
      obtain ⟨a, middle⟩ := found
      simp only [first, Option.map_eq_some_iff, Prod.mk.injEq] at reads
      obtain ⟨⟨later, left⟩, readsLater, rfl, rfl⟩ := reads
      obtain ⟨ts, split, phrase⟩ := sound first
      obtain ⟨us, splitLater, pieces, phrases, rfl, rfl⟩ := inductionHypothesis readsLater
      refine ⟨ts ++ pieces.flatMap Piece.tokens, ?_, ⟨ts, a⟩ :: pieces, ?_, by simp, by simp⟩
      · rw [split, splitLater, List.append_assoc]
      · simpa using ⟨phrase, phrases⟩

theorem Sound.many {language : List Token → α → Prop} (sound : p.Sound language) :
    (many p).Sound (Repeated language) :=
  fun _ _ _ reads => sound.repeatUpTo _ reads

/-- Repetition takes pieces in turn up to a place where the parser fails. `Follows` tells what may
stand behind a piece. -/
theorem Takes.repeatUpTo (Follows : List Token → Prop) {pieces : List (Piece α)}
    (takes : ∀ piece ∈ pieces, ∀ us, Follows us → p.Takes piece.tokens piece.value us)
    (next : ∀ piece ∈ pieces, ∀ us, Follows (piece.tokens ++ us))
    (last : Follows us) (stops : p.Refuses us) {bound : Nat} (enough : pieces.length ≤ bound) :
    (repeatUpTo p bound).Takes (pieces.flatMap Piece.tokens) (pieces.map Piece.value) us := by
  intro read rest isRead isRest
  induction pieces generalizing read bound with
  | nil =>
    obtain rfl : read = [] := List.map_eq_nil_iff.mp isRead
    cases bound with
    | zero => rfl
    | succ bound => simp [Reads, Parser.repeatUpTo, stops rest isRest]
  | cons piece pieces inductionHypothesis =>
    obtain ⟨bound, rfl⟩ := Nat.exists_eq_add_of_lt (Nat.lt_of_succ_le enough)
    rw [List.flatMap_cons] at isRead
    obtain ⟨one, other, rfl, isOne, isOther⟩ := tokensOf_eq_append_iff.mp isRead
    have follows : Follows (pieces.flatMap Piece.tokens ++ us) := by
      cases pieces with
      | nil => exact last
      | cons piece' pieces =>
        rw [List.flatMap_cons, List.append_assoc]
        exact next piece' (by simp) _
    have first := takes piece (by simp) _ follows one (other ++ rest) isOne
      (by simp [isOther, isRest])
    have later := inductionHypothesis
      (fun piece membership => takes piece (List.mem_cons_of_mem _ membership))
      (fun piece membership => next piece (List.mem_cons_of_mem _ membership))
      (Nat.le_add_right pieces.length bound) other isOther
    rw [Reads] at first later
    simp [Reads, Parser.repeatUpTo, List.append_assoc, first, later]

/-- There are no more pieces than tokens, if each is written with at least one. -/
theorem length_le_length_flatMap {pieces : List (Piece α)} {written : Piece α → List Token}
    (nonempty : ∀ piece ∈ pieces, written piece ≠ []) :
    pieces.length ≤ (pieces.flatMap written).length := by
  induction pieces with
  | nil => simp
  | cons piece pieces inductionHypothesis =>
    have one : 0 < (written piece).length := List.length_pos_iff.mpr (nonempty piece (by simp))
    have others := inductionHypothesis fun piece membership =>
      nonempty piece (List.mem_cons_of_mem _ membership)
    simp only [List.length_cons, List.flatMap_cons, List.length_append]
    omega

theorem length_tokens_le {pieces : List (Piece α)} {piece : Piece α} (membership : piece ∈ pieces)
    (written : Piece α → List Token) :
    (written piece).length ≤ (pieces.flatMap written).length := by
  rw [List.flatMap_def]
  exact (List.sublist_flatten_of_mem (List.mem_map_of_mem membership)).length_le

theorem Takes.many (Follows : List Token → Prop) {pieces : List (Piece α)}
    (takes : ∀ piece ∈ pieces, ∀ us, Follows us → p.Takes piece.tokens piece.value us)
    (nonempty : ∀ piece ∈ pieces, piece.tokens ≠ [])
    (next : ∀ piece ∈ pieces, ∀ us, Follows (piece.tokens ++ us))
    (last : Follows us) (stops : p.Refuses us) :
    (many p).Takes (pieces.flatMap Piece.tokens) (pieces.map Piece.value) us := by
  intro read rest isRead isRest
  apply Takes.repeatUpTo Follows takes next last stops _ read rest isRead isRest
  have few := length_le_length_flatMap nonempty
  rw [← isRead, tokensOf, List.length_map] at few
  rw [List.length_append]
  omega

/-- Repetition where every value is written with one token. -/
theorem Takes.manyOf {written : α → Token} (takes : ∀ value us, p.Takes [written value] value us)
    (values : List α) (stops : p.Refuses us) :
    (Parser.many p).Takes (values.map written) values us := by
  let pieces : List (Piece α) := values.map fun value => ⟨[written value], value⟩
  have single : ∀ piece ∈ pieces, piece.tokens = [written piece.value] := by
    intro piece membership
    obtain ⟨value, _, rfl⟩ := List.mem_map.mp membership
    rfl
  have inTurn : (Parser.many p).Takes (pieces.flatMap Piece.tokens) (pieces.map Piece.value)
      us := by
    apply Takes.many fun _ => True
    · intro piece membership us _
      rw [single piece membership]
      exact takes piece.value us
    · intro piece membership
      rw [single piece membership]
      exact List.cons_ne_nil _ _
    · exact fun _ _ _ => trivial
    · trivial
    · exact stops
  have areValues : pieces.map Piece.value = values := by simp [pieces, Function.comp_def]
  rwa [Piece.flatMap_tokens_eq_map written single, areValues] at inTurn

end Many

end Parser

end StreamSynth
