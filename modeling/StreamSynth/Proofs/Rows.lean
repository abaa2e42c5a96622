import StreamSynth.Proofs.Reading

/-!
# Rows and delimiters

What parsers read between delimiters, and in rows of items with commas between them. In some rows
a comma may follow the last item.
-/

namespace StreamSynth

def Piece.row {α : Type} : List (Piece α) → List Token
  | [] => []
  | first :: rest => first.tokens ++ rest.flatMap fun piece => .symbol .comma :: piece.tokens

inductive Piece.Listed {α : Type} : List (Piece α) → List Token → Prop
  | plain {pieces} : Listed pieces (row pieces)
  | trailing {pieces} : pieces ≠ [] → Listed pieces (row pieces ++ [.symbol .comma])

theorem Piece.length_le_row {α : Type} {pieces : List (Piece α)} {piece : Piece α}
    (membership : piece ∈ pieces) : piece.tokens.length ≤ (row pieces).length := by
  cases pieces with
  | nil => cases membership
  | cons first rest =>
    rw [row, List.length_append]
    rcases List.mem_cons.mp membership with rfl | inRest
    · exact Nat.le_add_right _ _
    · have inTail := Parser.length_tokens_le inRest fun piece => .symbol .comma :: piece.tokens
      rw [List.length_cons] at inTail
      omega

theorem Piece.Listed.length_le {α : Type} {pieces : List (Piece α)} {ts : List Token}
    (listed : Listed pieces ts) {piece : Piece α} (membership : piece ∈ pieces) :
    piece.tokens.length ≤ ts.length := by
  have inRow : piece.tokens.length ≤ (row pieces).length := length_le_row membership
  cases listed with
  | plain => exact inRow
  | trailing _ =>
    rw [List.length_append]
    exact Nat.le_add_right_of_le inRow

namespace Parser

variable {α β : Type}

section Delimited

variable {input rest : Input} {ts us : List Token} {a : α} {p : Parser α} {opening closing : Symbol}

theorem Sound.between {language : List Token → α → Prop} (sound : p.Sound language) :
    (between opening closing p).Sound fun ts value =>
      ∃ inner, ts = .symbol opening :: (inner ++ [.symbol closing]) ∧ language inner value := by
  intro input value rest reads
  simp only [Parser.between, symbol, reads_bind, reads_exactly, reads_pure] at reads
  obtain ⟨_, _, ⟨_, rfl⟩, _, _, readsInner, _, _, ⟨_, rfl⟩, rfl, rfl⟩ := reads
  obtain ⟨inner, split, phrase⟩ := sound readsInner
  exact ⟨_, by simp [split], inner, rfl, phrase⟩

theorem Takes.between (takes : p.Takes ts a (.symbol closing :: us)) :
    (between opening closing p).Takes (.symbol opening :: (ts ++ [.symbol closing])) a us :=
  .bind (.exactly _ _) (.bind (by simpa using takes) ((Takes.exactly _ _).last rfl))

theorem refuses_between (differs : us.head? ≠ some (.symbol opening)) :
    (between opening closing p).Refuses us :=
  (refuses_exactly differs).bind _

theorem reads_refine {view : α → Except String β} {b : β} :
    (refine p view).Reads input b rest ↔ ∃ a, p.Reads input a rest ∧ view a = .ok b := by
  cases found : (p input).result with
  | none => simp [Reads, refine, found]
  | some pair =>
    obtain ⟨value, left⟩ := pair
    cases viewed : view value with
    | ok refined =>
      simp only [Reads, refine, found, viewed, Option.some.injEq, Prod.mk.injEq]
      constructor
      · rintro ⟨rfl, rfl⟩
        exact ⟨value, ⟨rfl, rfl⟩, viewed⟩
      · rintro ⟨_, ⟨rfl, rfl⟩, accepted⟩
        rw [viewed] at accepted
        exact ⟨Except.ok.inj accepted, rfl⟩
    | error text =>
      simp only [Reads, refine, found, viewed, Option.some.injEq, Prod.mk.injEq]
      constructor
      · intro impossible
        cases impossible
      · rintro ⟨_, ⟨rfl, rfl⟩, accepted⟩
        rw [viewed] at accepted
        cases accepted

theorem Takes.refine {view : α → Except String β} {b : β} (takes : p.Takes ts a us)
    (accepted : view a = .ok b) : (refine p view).Takes ts b us :=
  fun read rest isRead isRest => reads_refine.mpr ⟨a, takes read rest isRead isRest, accepted⟩

theorem Refuses.refine (refuses : p.Refuses us) (view : α → Except String β) :
    (refine p view).Refuses us := by
  intro input isInput
  apply result_eq_none_iff.mpr
  intro value rest reads
  obtain ⟨a, readsInner, _⟩ := reads_refine.mp reads
  exact result_eq_none_iff.mp (refuses input isInput) a rest readsInner

end Delimited

section Rows

variable {input rest : Input} {ts us : List Token} {a : α} {p : Parser α} {trailing : Bool}

def RowTail (trailing : Bool) (language : List Token → α → Prop) (ts : List Token)
    (values : List α) : Prop :=
  ∃ pieces : List (Piece α), (∀ piece ∈ pieces, language piece.tokens piece.value) ∧
    values = pieces.map Piece.value ∧
    ∃ last, ts = pieces.flatMap (fun piece => .symbol .comma :: piece.tokens) ++ last ∧
      (last = [] ∨ trailing = true ∧ last = [.symbol .comma])

theorem reads_separated {found : Option α}
    (reads : (separated p (symbol .comma) trailing).Reads input found rest) :
    ∃ span middle, input = (.symbol .comma, span) :: middle ∧
      ((∃ a, found = some a ∧ p.Reads middle a rest) ∨
        trailing = true ∧ found = none ∧ rest = middle) := by
  rw [separated, symbol, reads_bind] at reads
  obtain ⟨_, middle, readsComma, readsItem⟩ := reads
  obtain ⟨span, rfl⟩ := reads_exactly.mp readsComma
  refine ⟨span, middle, rfl, ?_⟩
  cases trailing with
  | true =>
    rcases reads_optional readsItem with found | ⟨isNone, rfl⟩
    · exact .inl found
    · exact .inr ⟨rfl, isNone, rfl⟩
  | false =>
    obtain ⟨a, _, readsA, readsRest⟩ := reads_bind.mp readsItem
    obtain ⟨rfl, rfl⟩ := reads_pure.mp readsRest
    exact .inl ⟨a, rfl, readsA⟩

theorem Sound.rowUpTo {language : List Token → α → Prop} (sound : p.Sound language)
    (trailing : Bool) (bound : Nat) :
    (rowUpTo p (symbol .comma) trailing bound).Sound (RowTail trailing language) := by
  intro input values rest reads
  induction bound generalizing input values with
  | zero =>
    cases reads
    exact ⟨[], rfl, [], by simp⟩
  | succ bound inductionHypothesis =>
    unfold Reads Parser.rowUpTo at reads
    cases first : (separated p (symbol .comma) trailing input).result with
    | none =>
      simp only [first, Option.some.injEq, Prod.mk.injEq] at reads
      obtain ⟨rfl, rfl⟩ := reads
      exact ⟨[], rfl, [], by simp⟩
    | some found =>
      obtain ⟨found, middle⟩ := found
      obtain ⟨span, middle', rfl, ⟨a, rfl, readsA⟩ | ⟨isTrailing, rfl, rfl⟩⟩ :=
        reads_separated first
      · simp only [first, Option.map_eq_some_iff, Prod.mk.injEq] at reads
        obtain ⟨⟨later, left⟩, readsLater, rfl, rfl⟩ := reads
        obtain ⟨ts, split, phrase⟩ := sound readsA
        obtain ⟨_, splitLater, pieces, phrases, rfl, last, rfl, isLast⟩ :=
          inductionHypothesis readsLater
        refine ⟨_, ?_, ⟨ts, a⟩ :: pieces, by simpa using ⟨phrase, phrases⟩, rfl, last, rfl, isLast⟩
        simp [split, splitLater]
      · simp only [first, Option.some.injEq, Prod.mk.injEq] at reads
        obtain ⟨rfl, rfl⟩ := reads
        exact ⟨[.symbol .comma], rfl, [], by simp, rfl, _, rfl, .inr ⟨isTrailing, rfl⟩⟩

theorem Sound.commaRow {language : List Token → α → Prop} (sound : p.Sound language) :
    (commaRow p).Sound fun ts values => ∃ pieces : List (Piece α), pieces ≠ [] ∧
      (∀ piece ∈ pieces, language piece.tokens piece.value) ∧
      ts = Piece.row pieces ∧ values = pieces.map Piece.value := by
  intro input values rest reads
  obtain ⟨a, middle, readsFirst, readsRest⟩ := reads_bind.mp reads
  obtain ⟨later, _, readsLater, readsPure⟩ := reads_bind.mp readsRest
  obtain ⟨rfl, rfl⟩ := reads_pure.mp readsPure
  obtain ⟨ts, split, phrase⟩ := sound readsFirst
  obtain ⟨_, splitLater, pieces, phrases, rfl, last, rfl, rfl | ⟨impossible, _⟩⟩ :=
    sound.rowUpTo false _ readsLater
  · refine ⟨_, ?_, ⟨ts, a⟩ :: pieces, by simp, by simpa using ⟨phrase, phrases⟩, rfl, rfl⟩
    simp [split, splitLater, Piece.row]
  · cases impossible

theorem Sound.commaRowTrailing {language : List Token → α → Prop} (sound : p.Sound language) :
    (commaRowTrailing p).Sound fun ts values => ∃ pieces : List (Piece α),
      (∀ piece ∈ pieces, language piece.tokens piece.value) ∧
      Piece.Listed pieces ts ∧ values = pieces.map Piece.value := by
  intro input values rest reads
  unfold Reads Parser.commaRowTrailing at reads
  cases first : (p input).result with
  | none =>
    simp only [first, Option.some.injEq, Prod.mk.injEq] at reads
    obtain ⟨rfl, rfl⟩ := reads
    exact ⟨[], rfl, [], by simp, .plain, rfl⟩
  | some found =>
    obtain ⟨a, middle⟩ := found
    simp only [first, Option.map_eq_some_iff, Prod.mk.injEq] at reads
    obtain ⟨⟨later, left⟩, readsLater, rfl, rfl⟩ := reads
    obtain ⟨ts, split, phrase⟩ := sound first
    obtain ⟨_, splitLater, pieces, phrases, rfl, last, rfl, isLast⟩ :=
      sound.rowUpTo true _ readsLater
    refine ⟨Piece.row (⟨ts, a⟩ :: pieces) ++ last, ?_, ⟨ts, a⟩ :: pieces,
      by simpa using ⟨phrase, phrases⟩, ?_, rfl⟩
    · simp [split, splitLater, Piece.row]
    · rcases isLast with rfl | ⟨_, rfl⟩
      · rw [List.append_nil]
        exact .plain
      · exact .trailing (by simp)

theorem Takes.separated (takes : p.Takes ts a us) (trailing : Bool) :
    (separated p (symbol .comma) trailing).Takes (.symbol .comma :: ts) (some a) us := by
  apply Takes.bind (.exactly _ _)
  cases trailing with
  | true => exact takes.optional
  | false => exact takes.last rfl

theorem Refuses.separated (refuses : p.Refuses us) :
    (Parser.separated p (symbol .comma) true).Takes [.symbol .comma] none us := by
  have comma : (symbol .comma).Takes [.symbol .comma] () ([] ++ us) := .exactly _ _
  exact comma.bind refuses.optional

theorem refuses_separated (noComma : us.head? ≠ some (.symbol .comma)) :
    (separated p (symbol .comma) trailing).Refuses us :=
  (refuses_exactly noComma).bind _

/-- How the tail of a row can end: in front of a token that is no comma, or with a last comma that
no item follows. -/
def RowEnds (p : Parser α) (trailing : Bool) (Follows : List Token → Prop)
    (last us : List Token) : Prop :=
  last = [] ∧ Follows us ∧ us.head? ≠ some (.symbol .comma) ∨
    trailing = true ∧ last = [.symbol .comma] ∧ p.Refuses us

section Pieces

variable {pieces : List (Piece α)} {Follows : List Token → Prop} {last : List Token}

theorem RowEnds.follows (ends : RowEnds p trailing Follows last us)
    (comma : ∀ us, Follows (.symbol .comma :: us)) (pieces : List (Piece α)) :
    Follows (pieces.flatMap (fun piece => .symbol .comma :: piece.tokens) ++ last ++ us) := by
  cases pieces with
  | cons piece pieces => exact comma _
  | nil =>
    rcases ends with ⟨rfl, follows, _⟩ | ⟨_, rfl, _⟩
    · exact follows
    · exact comma us

variable (takes : ∀ piece ∈ pieces, ∀ us, Follows us → p.Takes piece.tokens piece.value us)
  (comma : ∀ us, Follows (.symbol .comma :: us))

include takes comma

theorem Takes.rowUpTo {bound : Nat} (ends : RowEnds p trailing Follows last us)
    (enough : pieces.length < bound) :
    (rowUpTo p (symbol .comma) trailing bound).Takes
      (pieces.flatMap (fun piece => .symbol .comma :: piece.tokens) ++ last)
      (pieces.map Piece.value) us := by
  intro read rest isRead isRest
  obtain ⟨bound, rfl⟩ := Nat.exists_eq_succ_of_ne_zero (Nat.ne_zero_of_lt enough)
  induction pieces generalizing read bound with
  | nil =>
    rcases ends with ⟨rfl, _, noComma⟩ | ⟨rfl, rfl, refuses⟩
    · obtain rfl : read = [] := List.map_eq_nil_iff.mp isRead
      have stops : (Parser.separated p (symbol .comma) trailing).Refuses us :=
        refuses_separated noComma
      simp [Reads, Parser.rowUpTo, stops rest isRest]
    · have ends := refuses.separated read rest isRead isRest
      rw [Reads] at ends
      simp [Reads, Parser.rowUpTo, ends]
  | cons piece pieces inductionHypothesis =>
    rw [List.flatMap_cons, List.append_assoc] at isRead
    obtain ⟨one, other, rfl, isOne, isOther⟩ := tokensOf_eq_append_iff.mp isRead
    have enoughLeft : pieces.length < bound := Nat.lt_of_succ_lt_succ enough
    obtain ⟨bound, rfl⟩ := Nat.exists_eq_succ_of_ne_zero (Nat.ne_zero_of_lt enoughLeft)
    have first := (takes piece (by simp) _ (ends.follows comma pieces)).separated trailing
      one (other ++ rest) isOne (by simp [isOther, isRest])
    have later := inductionHypothesis
      (fun piece membership => takes piece (List.mem_cons_of_mem _ membership))
      other isOther bound enoughLeft
    rw [Reads] at first later
    rw [Reads, Parser.rowUpTo, List.append_assoc]
    simp [first, later]

/-- The number of tokens that are left is bound enough for the tail of a row. -/
theorem Takes.rowTail (ends : RowEnds p trailing Follows last us) :
    Takes (fun input => Parser.rowUpTo p (symbol .comma) trailing (input.length + 1) input)
      (pieces.flatMap (fun piece => .symbol .comma :: piece.tokens) ++ last)
      (pieces.map Piece.value) us := by
  intro read rest isRead isRest
  refine Takes.rowUpTo takes comma ends ?_ read rest isRead isRest
  have few : pieces.length ≤ (pieces.flatMap fun piece => .symbol .comma :: piece.tokens).length :=
    length_le_length_flatMap fun _ _ => List.cons_ne_nil _ _
  have length_eq := congrArg List.length isRead
  rw [tokensOf, List.length_map, List.length_append] at length_eq
  rw [List.length_append]
  omega

theorem Takes.commaRow (nonempty : pieces ≠ []) (follows : Follows us)
    (noComma : us.head? ≠ some (.symbol .comma)) :
    (commaRow p).Takes (Piece.row pieces) (pieces.map Piece.value) us := by
  cases pieces with
  | nil => exact absurd rfl nonempty
  | cons first pieces =>
    have ends : RowEnds p false Follows [] us := .inl ⟨rfl, follows, noComma⟩
    have tail := Takes.rowTail
      (fun piece membership => takes piece (List.mem_cons_of_mem _ membership)) comma ends
    rw [List.append_nil] at tail
    have head := takes first (by simp) _ (ends.follows comma pieces)
    rw [List.append_nil] at head
    exact head.bind (tail.last rfl)

theorem Takes.commaRowTrailing {ts : List Token} (listed : Piece.Listed pieces ts)
    (follows : Follows us) (noComma : us.head? ≠ some (.symbol .comma)) (stops : p.Refuses us) :
    (commaRowTrailing p).Takes ts (pieces.map Piece.value) us := by
  cases pieces with
  | nil =>
    cases listed with
    | plain =>
      intro read rest isRead isRest
      obtain rfl : read = [] := List.map_eq_nil_iff.mp isRead
      simp [Reads, Parser.commaRowTrailing, stops rest isRest]
    | trailing nonempty => exact absurd rfl nonempty
  | cons first pieces =>
    obtain ⟨last, rfl, ends⟩ : ∃ last, ts = first.tokens ++
        (pieces.flatMap (fun piece => .symbol .comma :: piece.tokens) ++ last) ∧
        RowEnds p true Follows last us := by
      cases listed with
      | plain => exact ⟨[], by simp [Piece.row], .inl ⟨rfl, follows, noComma⟩⟩
      | trailing _ => exact ⟨[.symbol .comma], by simp [Piece.row], .inr ⟨rfl, rfl, stops⟩⟩
    intro read rest isRead isRest
    obtain ⟨one, other, rfl, isOne, isOther⟩ := tokensOf_eq_append_iff.mp isRead
    have head := takes first (by simp) _ (ends.follows comma pieces) one (other ++ rest) isOne
      (by simp [isOther, isRest])
    have tail := Takes.rowTail
      (fun piece membership => takes piece (List.mem_cons_of_mem _ membership)) comma ends
      other rest isOther isRest
    unfold Reads at head tail ⊢
    simpa [Parser.commaRowTrailing, head] using tail

end Pieces

end Rows

end Parser

end StreamSynth
