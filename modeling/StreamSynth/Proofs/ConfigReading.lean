import Mathlib.Tactic.SplitIfs
import StreamSynth.Config.Reader
import StreamSynth.Proofs.Digits

/-!
# Reading back the canonical text of a configuration

Every reader of a sort of value takes the compact text of such a value and stops behind it. A
record is read field by field, from default values to the record that was written, so that the
text of a configuration determines it.
-/

namespace StreamSynth

namespace JsonReader

variable {α β : Type}

def EndsValue (rest : List Char) : Prop :=
  ∀ c ∈ rest.head?, c = ',' ∨ c = ']' ∨ c = '\x7d'

theorem EndsValue.cons {c : Char} (ends : c = ',' ∨ c = ']' ∨ c = '\x7d') (rest : List Char) :
    EndsValue (c :: rest) := by
  intro other isFirst
  cases isFirst
  exact ends

def Takes (reader : JsonReader α) (text : List Char) (value : α) : Prop :=
  ∀ rest, EndsValue rest → reader (text ++ rest) = .ok (value, rest)

theorem bind_of_ok {reader : JsonReader α} {next : α → JsonReader β} {value : α}
    {text rest : List Char} (taken : reader text = .ok (value, rest)) :
    (reader >>= next) text = next value rest := by
  change (reader text >>= fun (value, rest) => next value rest) = _
  rw [taken]
  rfl

theorem get_eq (text : List Char) : (get : JsonReader _) text = .ok (text, text) := rfl

theorem advance_cons (c : Char) (text : List Char) : advance (c :: text) = .ok ((), text) := rfl

theorem lift_eq {result : Except JsonError α} {value : α} (succeeded : result = .ok value)
    (text : List Char) : (liftM result : JsonReader α) text = .ok (value, text) := by
  rw [succeeded]
  rfl

theorem Takes.map {reader : JsonReader α} {text : List Char} {value : α}
    (takes : reader.Takes text value) (f : α → β) :
    Takes (reader >>= fun value => pure (f value)) text (f value) := by
  intro rest ends
  rw [bind_of_ok (takes rest ends)]
  rfl

section Strings

theorem escape_cases (c : Char) :
    (∃ letter, letter ≠ 'u' ∧ letterEscape? letter = some c ∧ Json.escape c = ['\\', letter]) ∨
      (c.toNat < 32 ∧ Json.escape c = ['\\', 'u', '0', '0'] ++ Json.hexPair c.toNat) ∨
      (c ≠ '"' ∧ c ≠ '\\' ∧ ¬ c.toNat < 32 ∧ Json.escape c = [c]) := by
  unfold Json.escape
  split_ifs with isQuote isBackslash isBack isTab isLine isFeed isReturn isControl
  · exact .inl ⟨'"', by decide, by rw [isQuote, letterEscape?], rfl⟩
  · exact .inl ⟨'\\', by decide, by rw [isBackslash, letterEscape?], rfl⟩
  · exact .inl ⟨'b', by decide, by rw [isBack, letterEscape?], rfl⟩
  · exact .inl ⟨'t', by decide, by rw [isTab, letterEscape?], rfl⟩
  · exact .inl ⟨'n', by decide, by rw [isLine, letterEscape?], rfl⟩
  · exact .inl ⟨'f', by decide, by rw [isFeed, letterEscape?], rfl⟩
  · exact .inl ⟨'r', by decide, by rw [isReturn, letterEscape?], rfl⟩
  · exact .inr (.inl ⟨isControl, rfl⟩)
  · exact .inr (.inr ⟨isQuote, isBackslash, isControl, rfl⟩)

theorem hexFour?_control :
    ∀ n < 32, hexFour? '0' '0' (Nat.digitChar (n / 16)) (Nat.digitChar (n % 16)) = some n ∧
      isLowSurrogate n = false ∧ isHighSurrogate n = false := by
  decide

theorem stringTail_escape (c : Char) (cs : List Char) :
    stringTail (Json.escape c ++ cs) =
      (stringTail cs).map fun (text, rest) => (c :: text, rest) := by
  rcases escape_cases c with ⟨letter, notCode, isLetter, isEscape⟩ | ⟨isControl, isEscape⟩ |
    ⟨notQuote, notBackslash, notControl, isEscape⟩
  · rw [isEscape, List.cons_append, List.singleton_append, stringTail, isLetter]
    · rfl
    all_goals grind
  · obtain ⟨isCode, notLow, notHigh⟩ := hexFour?_control _ isControl
    rw [isEscape, Json.hexPair]
    simp only [List.cons_append, List.nil_append, stringTail, isCode, notLow, notHigh,
      Char.ofNat_toNat]
    rfl
  · rw [isEscape, List.singleton_append, stringTail, if_neg notControl]
    · rfl
    all_goals grind

theorem stringTail_quoted (text rest : List Char) :
    stringTail (text.flatMap Json.escape ++ '"' :: rest) = .ok (text, rest) := by
  induction text with
  | nil => rfl
  | cons c text inductionHypothesis =>
    rw [List.flatMap_cons, List.append_assoc, stringTail_escape, inductionHypothesis]
    rfl

theorem toList_quote (text : String) :
    (Json.quote text).toList = '"' :: text.toList.flatMap Json.escape ++ ['"'] := by
  rw [Json.quote, String.toList_ofList]

theorem stringBody_quote (text : String) (rest : List Char) :
    stringBody ((Json.quote text).toList ++ rest) = .ok (text, rest) := by
  rw [toList_quote, List.append_assoc, List.cons_append, List.singleton_append, stringBody,
    bind_of_ok (advance_cons _ _), bind_of_ok (get_eq _),
    bind_of_ok (lift_eq (stringTail_quoted text.toList rest) _)]
  change Except.ok (String.ofList text.toList, rest) = _
  rw [String.ofList_toList]

theorem takes_string (text : String) : string.Takes (Json.string text).compact.toList text := by
  intro rest _
  rw [Json.compact]
  have opened (cs : List Char) : string ('"' :: cs) = stringBody ('"' :: cs) := rfl
  rw [← stringBody_quote text rest, toList_quote]
  exact opened _

end Strings

section Literals

theorem takes_bool (value : Bool) : bool.Takes (Json.bool value).compact.toList value := by
  intro rest _
  cases value <;> rfl

theorem head?_toDigits {n : Nat} (positive : 0 < n) : (Nat.toDigits 10 n).head? ≠ some '0' := by
  induction n using Nat.strongRecOn with
  | ind n inductionHypothesis =>
    by_cases small : n < 10
    · rw [Nat.toDigits_of_lt_base small, List.head?_cons, ne_eq, Option.some_inj,
        Nat.digitChar_eq_zero]
      omega
    · have shorter := inductionHypothesis (n / 10) (by omega) (by omega)
      obtain ⟨first, more, areDigits⟩ :=
        List.exists_cons_of_ne_nil (@Nat.toDigits_ne_nil (n / 10) 10)
      rw [Nat.toDigits_of_base_le (by decide) (by omega), areDigits]
      rwa [areDigits] at shorter

theorem le_ofDigitChars (digits : List Char) (n : Nat) : n ≤ Nat.ofDigitChars 10 digits n := by
  induction digits generalizing n with
  | nil => exact Nat.le_refl n
  | cons digit digits inductionHypothesis =>
    rw [Nat.ofDigitChars_cons]
    exact Nat.le_trans (by omega) (inductionHypothesis _)

theorem accumulate_eq {digits : List Char} {n : Nat}
    (fits : Nat.ofDigitChars 10 digits n ≤ JsonNumber.maxExact) :
    JsonNumber.accumulate n digits = (Nat.ofDigitChars 10 digits n, 0) := by
  induction digits generalizing n with
  | nil => rfl
  | cons digit digits inductionHypothesis =>
    rw [Nat.ofDigitChars_cons, Nat.mul_comm] at fits ⊢
    have nextFits := Nat.le_trans (le_ofDigitChars digits _) fits
    rw [JsonNumber.accumulate]
    simp only [nextFits, if_true]
    exact inductionHypothesis fits

theorem readTail_natural (n : Nat) {rest : List Char} (ends : EndsValue rest) :
    JsonNumber.readTail false n 0 rest = .ok (.natural n, rest) := by
  cases rest with
  | nil => rfl
  | cons c rest => rcases ends c rfl with rfl | rfl | rfl <;> rfl

theorem EndsValue.not_digit {rest : List Char} (ends : EndsValue rest) :
    rest.head?.any Char.isDigit = false := by
  cases rest with
  | nil => rfl
  | cons c rest => rcases ends c rfl with rfl | rfl | rfl <;> rfl

theorem read_toDigits {n : Nat} (fits : n ≤ JsonNumber.maxExact) {rest : List Char}
    (ends : EndsValue rest) :
    JsonNumber.read false (Nat.toDigits 10 n ++ rest) = .ok (.natural n, rest) := by
  by_cases isZero : n = 0
  · subst isZero
    change (if rest.head?.any Char.isDigit then _ else _) = _
    rw [ends.not_digit]
    exact readTail_natural 0 ends
  · have notZero := head?_toDigits (Nat.pos_of_ne_zero isZero)
    have isValue : Nat.ofDigitChars 10 (Nat.toDigits 10 n) 0 = n := Nat.ofDigitChars_ten_toDigits
    have accumulated := accumulate_eq (Nat.le_trans (Nat.le_of_eq isValue) fits)
    rw [isValue] at accumulated
    obtain ⟨first, more, isText, firstDigit, areDigits⟩ := toDigits_eq_cons n
    obtain ⟨taken, left⟩ :=
      span_kind (List.forall_mem_cons.mpr ⟨firstDigit, areDigits⟩) ends.not_digit
    rw [isText] at notZero accumulated ⊢
    have firstNotZero : first ≠ '0' := by simpa using notZero
    rw [List.cons_append] at taken left ⊢
    rw [JsonNumber.read, if_neg firstNotZero, if_pos firstDigit, taken, left, accumulated]
    exact readTail_natural n ends

theorem peekValue_cons {c : Char} (notBlank : isBlank c = false) (cs : List Char) :
    peekValue (c :: cs) = .ok (c, c :: cs) := by
  have looked : peek (c :: cs) = .ok (some c, c :: cs) := by
    simp [peek, notBlank]
  rw [peekValue, bind_of_ok looked]
  rfl

theorem isBlank_eq_false_of_isDigit {c : Char} (digit : c.isDigit = true) : isBlank c = false := by
  rw [Bool.eq_false_iff]
  intro blank
  simp only [isBlank, Bool.or_eq_true, decide_eq_true_eq] at blank
  rcases blank with ((rfl | rfl) | rfl) | rfl <;> cases digit

theorem takes_natural {n : Nat} (fits : n ≤ JsonNumber.maxExact) :
    natural.Takes (Json.nat n).compact.toList n := by
  intro rest ends
  have isText : (Json.nat n).compact.toList = Nat.toDigits 10 n := by
    rw [Json.compact, Nat.toString_eq_ofList_toDigits, String.toList_ofList]
  have taken := read_toDigits fits ends
  rw [isText]
  obtain ⟨first, more, areDigits, isDigit, -⟩ := toDigits_eq_cons n
  rw [areDigits] at taken ⊢
  have notBlank : isBlank first = false := isBlank_eq_false_of_isDigit isDigit
  have notSign : ¬ (first :: (more ++ rest)).head? = some '-' := by
    rintro ⟨⟩
    cases isDigit
  have isNumber : number (first :: (more ++ rest)) = .ok (.natural n, rest) := by
    rw [number, bind_of_ok (get_eq _), if_neg notSign, decide_eq_false notSign]
    exact (bind_of_ok (get_eq _)).trans (bind_of_ok (lift_eq taken _))
  rw [List.cons_append, natural, bind_of_ok (peekValue_cons notBlank _),
    if_pos (by simp [isDigit]), bind_of_ok isNumber]
  rfl

end Literals

section Rows

/-- Pieces with a comma between neighbours, and one before the first unless it stands at the
beginning. -/
def row : Bool → List String → List Char
  | _, [] => []
  | atStart, piece :: rest => (if atStart then [] else [',']) ++ piece.toList ++ row false rest

theorem toList_joinWith (pieces : List String) :
    (joinWith "," pieces).toList = row true pieces := by
  fun_induction joinWith "," pieces with
  | case1 => rfl
  | case2 piece => simp [row]
  | case3 piece next rest inductionHypothesis => simp [row, inductionHypothesis]

theorem endsValue_row {closing : Char} (closes : closing = ']' ∨ closing = '\x7d')
    (pieces : List String) (rest : List Char) :
    EndsValue (row false pieces ++ closing :: rest) := by
  cases pieces with
  | nil => exact .cons (.inr closes) rest
  | cons piece pieces => exact .cons (.inl rfl) _

theorem compactAll_strings (texts : List String) :
    Json.compactAll (texts.map .string) = texts.map Json.quote := by
  induction texts with
  | nil => rfl
  | cons text texts inductionHypothesis =>
    rw [List.map_cons, Json.compactAll, inductionHypothesis, Json.compact, List.map_cons]

theorem hasItem_quote (atStart : Bool) (text : String) (rest : List Char) :
    hasItem atStart ((if atStart then [] else [',']) ++ (Json.quote text).toList ++ rest) =
      .ok (true, (Json.quote text).toList ++ rest) := by
  rw [toList_quote]
  cases atStart <;> rfl

theorem items_row {texts : List String} {bound : Nat} (enough : texts.length < bound)
    (atStart : Bool) (rest : List Char) :
    items string bound atStart (row atStart (texts.map Json.quote) ++ ']' :: rest) =
      .ok (texts, ']' :: rest) := by
  induction texts generalizing bound atStart with
  | nil =>
    obtain ⟨bound, rfl⟩ := Nat.exists_eq_add_of_lt enough
    cases atStart <;> rfl
  | cons text texts inductionHypothesis =>
    obtain ⟨bound, rfl⟩ := Nat.exists_eq_add_of_lt enough
    have later := @inductionHypothesis (texts.length + 1 + bound) (by omega) false
    have first := takes_string text _ (endsValue_row (.inl rfl) (texts.map Json.quote) rest)
    rw [Json.compact] at first
    rw [List.map_cons, row, List.append_assoc, List.length_cons, items,
      bind_of_ok (hasItem_quote atStart text _), if_pos rfl, bind_of_ok first, bind_of_ok later]
    rfl

theorem length_le_length_row (atStart : Bool) (texts : List String) :
    texts.length ≤ (row atStart (texts.map Json.quote)).length := by
  induction texts generalizing atStart with
  | nil => exact Nat.zero_le _
  | cons text texts inductionHypothesis =>
    have later := inductionHypothesis false
    simp only [List.map_cons, row, List.length_append, toList_quote, List.length_cons]
    omega

theorem takes_strings (texts : List String) :
    strings.Takes (Json.strings texts).compact.toList texts := by
  intro rest _
  have isText : (Json.strings texts).compact.toList ++ rest =
      '[' :: (row true (texts.map Json.quote) ++ ']' :: rest) := by
    simp [Json.strings, Json.compact, compactAll_strings, toList_joinWith]
  have opened (cs : List Char) : strings ('[' :: cs) =
      (do let values ← items string (cs.length + 1) true; endList; return values) cs := rfl
  have enough : texts.length < (row true (texts.map Json.quote) ++ ']' :: rest).length + 1 := by
    have := length_le_length_row true texts
    rw [List.length_append]
    omega
  rw [isText, opened, bind_of_ok (items_row enough true rest)]
  rfl

end Rows

section Records

/-- The fields take the values of the members one after the other, which leads from the first
record to the second. -/
inductive Fills : List (RecordField α) → List (String × Json) → α → α → Prop
  | nil (record : α) : Fills [] [] record record
  | cons {field : RecordField α} {value : Json} {fields : List (RecordField α)}
      {members : List (String × Json)} {before between after : α}
      (takes : (field.read before).Takes value.compact.toList between)
      (later : Fills fields members between after) :
      Fills (field :: fields) ((field.name, value) :: members) before after

theorem hasKey_quote (atStart : Bool) (key : String) (rest : List Char) :
    hasKey atStart ((if atStart then [] else [',']) ++ (Json.quote key).toList ++ rest) =
      .ok (true, (Json.quote key).toList ++ rest) := by
  rw [toList_quote]
  cases atStart <;> rfl

variable {fields : List (RecordField α)}

theorem find?_of_distinct {field : RecordField α} (distinct : (fields.map (·.name)).Nodup)
    (isField : field ∈ fields) : fields.find? (·.name = field.name) = some field := by
  induction fields with
  | nil => cases isField
  | cons first fields inductionHypothesis =>
    rw [List.map_cons, List.nodup_cons] at distinct
    rcases List.mem_cons.mp isField with rfl | isLater
    · rw [List.find?_cons_of_pos (by simp)]
    · have otherName : first.name ≠ field.name := by
        intro sameName
        exact distinct.1 (sameName ▸ List.mem_map_of_mem isLater)
      rw [List.find?_cons_of_neg (by simpa using otherName),
        inductionHypothesis distinct.2 isLater]

/-- One field of an object is read, wherever it stands among the known ones. -/
theorem namedFields_cons {field : RecordField α} {seen : List String} {before between : α}
    {value : Json} (found : fields.find? (·.name = field.name) = some field)
    (isNew : field.name ∉ seen) (takes : (field.read before).Takes value.compact.toList between)
    (bound : Nat) (atStart : Bool) {rest : List Char} (ends : EndsValue rest) :
    namedFields fields (bound + 1) atStart seen before
        ((if atStart then [] else [',']) ++
          (Json.quote field.name ++ ":" ++ value.compact).toList ++ rest) =
      namedFields fields bound false (field.name :: seen) between rest := by
  have isText : (if atStart then [] else [',']) ++
      (Json.quote field.name ++ ":" ++ value.compact).toList ++ rest =
        (if atStart then [] else [',']) ++ (Json.quote field.name).toList ++
          (':' :: (value.compact.toList ++ rest)) := by
    simp
  have passesColon (cs : List Char) : colon (':' :: cs) = .ok ((), cs) := rfl
  rw [isText, namedFields, bind_of_ok (hasKey_quote atStart _ _), if_pos rfl,
    bind_of_ok (stringBody_quote _ _), found]
  change (if field.name ∈ seen then _ else colon >>= fun _ => field.read before >>= fun record =>
    namedFields fields bound false (field.name :: seen) record) _ = _
  rw [if_neg isNew, bind_of_ok (passesColon _), bind_of_ok (takes rest ends)]

/-- The fields that are still to be read are known, not yet seen and different from each other. -/
theorem namedFields_row {toRead : List (RecordField α)} {members : List (String × Json)}
    {before after : α} (fills : Fills toRead members before after)
    (distinct : (fields.map (·.name)).Nodup) (known : toRead ⊆ fields)
    (differ : (toRead.map (·.name)).Nodup) {seen : List String}
    (areNew : ∀ field ∈ toRead, field.name ∉ seen) {bound : Nat} (enough : toRead.length < bound)
    (atStart : Bool) (rest : List Char) :
    namedFields fields bound atStart seen before
        (row atStart (Json.compactFields members) ++ '\x7d' :: rest) =
      .ok (after, '\x7d' :: rest) := by
  induction fills generalizing seen bound atStart with
  | nil record =>
    obtain ⟨bound, rfl⟩ := Nat.exists_eq_add_of_lt enough
    cases atStart <;> rfl
  | @cons field value toRead members before between after takes later inductionHypothesis =>
    obtain ⟨bound, rfl⟩ := Nat.exists_eq_add_of_lt enough
    rw [List.cons_subset] at known
    rw [List.map_cons, List.nodup_cons] at differ
    rw [List.forall_mem_cons] at areNew
    have laterNew : ∀ later ∈ toRead, later.name ∉ field.name :: seen := by
      intro later isLater
      rw [List.mem_cons, not_or]
      refine ⟨fun sameName => differ.1 ?_, areNew.2 later isLater⟩
      exact sameName ▸ List.mem_map_of_mem isLater
    have stepped := namedFields_cons (find?_of_distinct distinct known.1) areNew.1 takes
      (toRead.length + 1 + bound) atStart
      (endsValue_row (.inr rfl) (Json.compactFields members) rest)
    rw [Json.compactFields, row, List.append_assoc, List.length_cons, stepped]
    exact inductionHypothesis known.2 differ.2 laterNew (by omega) false

theorem takes_record (kind : String) {members : List (String × Json)} {defaults value : α}
    (fills : Fills fields members defaults value) (distinct : (fields.map (·.name)).Nodup) :
    (record kind fields defaults).Takes (Json.object members).compact.toList value := by
  intro rest _
  have isText : (Json.object members).compact.toList ++ rest =
      '\x7b' :: (row true (Json.compactFields members) ++ '\x7d' :: rest) := by
    simp [Json.compact, toList_joinWith]
  have opened (cs : List Char) : record kind fields defaults ('\x7b' :: cs) =
      (do
        let value ← namedFields fields (fields.length + 1) true [] defaults
        advance
        return value) cs := rfl
  have filled := namedFields_row fills distinct (List.Subset.refl _) distinct
    (fun _ _ => List.not_mem_nil) (Nat.lt_succ_self _) true rest
  rw [isText, opened, bind_of_ok filled]
  rfl

end Records

end JsonReader

open JsonReader

theorem Naming.reader_takes (n : Naming) : Naming.reader.Takes n.toJson.compact.toList n := by
  have fills : Fills Naming.fields _ Naming.standard n :=
    .cons ((takes_string n.regionStart).map _) <| .cons ((takes_string n.streamSuffix).map _) <|
    .cons ((takes_strings n.stencilSuffixes).map _) <|
    .cons ((takes_strings n.updateSuffixes).map _) <|
    .cons ((takes_strings n.scalarSuffixes).map _) <|
    .cons ((takes_string n.descriptorSuffix).map _) <| .nil n
  exact takes_record _ fills (by decide)

namespace Config

theorem reader_canonical {c : Config} (fits : c.streamDepth ≤ JsonNumber.maxExact) :
    Config.reader c.canonical.toList = .ok (c, []) := by
  have fills : Fills Config.fields _ Config.standard c :=
    .cons ((takes_string c.kernelStem).map _) <| .cons ((takes_natural fits).map _) <|
    .cons (c.naming.reader_takes.map _) <| .cons ((takes_strings c.driverHeaders).map _) <|
    .cons ((takes_strings c.kernelHeaders).map _) <|
    .cons ((takes_bool c.interfacePragmas).map _) <| .nil c
  have taken := takes_record "HlsConfig" fills (by decide) [] (by nofun)
  rw [List.append_nil] at taken
  rw [Config.reader]
  exact bind_of_ok taken

/-- A valid configuration is read back from its canonical text, so no other configuration has that
text. -/
theorem ofText_canonical {c : Config} (valid : c.fault? = none)
    (fits : c.streamDepth < UInt64.size) :
    (∀ path, ofText path c.canonical = .ok c) ∧
      ∀ other : Config, other.streamDepth < UInt64.size → other ≠ c →
        other.canonical ≠ c.canonical := by
  have isRead := reader_canonical (Nat.le_sub_one_of_lt fits)
  constructor
  · intro path
    simp only [ofText, isRead, valid]
  · intro other otherFits differs sameText
    have otherRead := reader_canonical (Nat.le_sub_one_of_lt otherFits)
    rw [sameText, isRead] at otherRead
    cases otherRead
    exact differs rfl

def escapes : Config :=
  { Config.standard with
    kernelStem := "a\"b\\c/\n\t\x01\x1f\x7f"
    streamDepth := UInt64.size - 1
    naming := { Naming.standard with
      regionStart := "\x08\x0c\x0d", stencilSuffixes := [], scalarSuffixes := ["", ",", "\",\""] }
    driverHeaders := ["ü→😀", "]\x7d"] }

theorem ofText_canonical_escapes :
    escapes.fault? = none ∧ (∀ path, ofText path escapes.canonical = .ok escapes) ∧
      Config.standard.canonical ≠ escapes.canonical := by
  have valid : escapes.fault? = none := by decide
  obtain ⟨isRead, isOwn⟩ := ofText_canonical valid (by decide)
  exact ⟨valid, isRead, isOwn .standard (by decide) (by decide)⟩

end Config

end StreamSynth
