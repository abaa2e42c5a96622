import StreamSynth.Config.Canonical
import StreamSynth.Config.JsonNumber
import StreamSynth.Text.ByteLength
import StreamSynth.Text.Quoted

/-!
# Reading a configuration

A configuration is a JSON object whose fields may stand in any order and may be left out; a field
that is not known, or stands twice, is refused. Instead of an object a list of the field values
in order may be given, of which the last ones may be left out. Reading stops at the first thing
that is wrong in the order of the text.
-/

namespace StreamSynth

abbrev JsonReader := StateT (List Char) (Except JsonError)

namespace JsonReader

def isBlank (c : Char) : Bool := c = ' ' || c = '\n' || c = '\t' || c = '\r'

def peek : JsonReader (Option Char) := fun cs =>
  let cs := cs.dropWhile isBlank
  .ok (cs.head?, cs)

def advance : JsonReader Unit := modify List.tail

/-- Looks at the next character of a value that has to be there. -/
def peekValue : JsonReader Char := do
  match ← peek with
  | some c => return c
  | none => throw .endInValue

def word : List Char → JsonReader Unit
  | [] => return ()
  | c :: rest => do
    match (← get).head? with
    | none => throw .endInValue
    | some found =>
      advance
      if found = c then word rest else throw .expectedWord

def hexDigit? (c : Char) : Option Nat :=
  if '0' ≤ c ∧ c ≤ '9' then some (c.toNat - '0'.toNat)
  else if 'a' ≤ c ∧ c ≤ 'f' then some (c.toNat - 'a'.toNat + 10)
  else if 'A' ≤ c ∧ c ≤ 'F' then some (c.toNat - 'A'.toNat + 10)
  else none

def hexFour? (a b c d : Char) : Option Nat := do
  return (((← hexDigit? a) * 16 + (← hexDigit? b)) * 16 + (← hexDigit? c)) * 16 + (← hexDigit? d)

def isHighSurrogate (n : Nat) : Bool := 0xd800 ≤ n && n ≤ 0xdbff

def isLowSurrogate (n : Nat) : Bool := 0xdc00 ≤ n && n ≤ 0xdfff

def surrogatePair (high low : Nat) : Char :=
  Char.ofNat ((high - 0xd800) * 0x400 + (low - 0xdc00) + 0x10000)

def letterEscape? : Char → Option Char
  | '"' => some '"'
  | '\\' => some '\\'
  | '/' => some '/'
  | 'b' => some '\x08'
  | 'f' => some '\x0c'
  | 'n' => some '\n'
  | 'r' => some '\r'
  | 't' => some '\t'
  | _ => none

/-- The error of an escape with fewer than four characters after its `u`. Four bytes are taken for
digits, however many characters they are. -/
def shortHex (cs : List Char) : JsonError :=
  if byteLength cs < 4 then .endInString else .invalidEscape

/-- The error where the second half of a pair of surrogates is missing. -/
def missingHalf : List Char → JsonError
  | [] => .endInString
  | ['\\'] => .endInString
  | '\\' :: 'u' :: rest => shortHex rest
  | _ => .brokenSurrogate

/-- The text of a string after its opening quote, and what follows its closing quote. -/
def stringTail : List Char → Except JsonError (List Char × List Char)
  | [] => .error .endInString
  | '"' :: rest => .ok ([], rest)
  | '\\' :: 'u' :: a :: b :: c :: d :: rest =>
    match hexFour? a b c d with
    | none => .error .invalidEscape
    | some first =>
      if isLowSurrogate first then .error .loneSurrogate
      else if isHighSurrogate first then
        match rest with
        | '\\' :: 'u' :: e :: f :: g :: h :: rest =>
          match hexFour? e f g h with
          | none => .error .invalidEscape
          | some second =>
            if isLowSurrogate second then do
              let (text, rest) ← stringTail rest
              return (surrogatePair first second :: text, rest)
            else .error .loneSurrogate
        | _ => .error (missingHalf rest)
      else do
        let (text, rest) ← stringTail rest
        return (Char.ofNat first :: text, rest)
  | '\\' :: 'u' :: rest => .error (shortHex rest)
  | '\\' :: c :: rest =>
    match letterEscape? c with
    | none => .error .invalidEscape
    | some escaped => do
      let (text, rest) ← stringTail rest
      return (escaped :: text, rest)
  | ['\\'] => .error .endInString
  | c :: rest =>
    if c.toNat < 32 then .error .controlCharacter
    else do
      let (text, rest) ← stringTail rest
      return (c :: text, rest)

def stringBody : JsonReader String := do
  advance
  let (text, rest) ← stringTail (← get)
  set rest
  return String.ofList text

def number : JsonReader JsonNumber := do
  let negative := (← get).head? = some '-'
  if negative then advance
  let (value, rest) ← JsonNumber.read negative (← get)
  set rest
  return value

def refuse {α : Type} (wanted : String) : JsonReader α := do
  match (← get).head? with
  | some 'n' =>
    word ['n', 'u', 'l', 'l']
    throw (.wrongType "null" wanted)
  | some 't' =>
    word ['t', 'r', 'u', 'e']
    throw (.wrongType "boolean `true`" wanted)
  | some 'f' =>
    word ['f', 'a', 'l', 's', 'e']
    throw (.wrongType "boolean `false`" wanted)
  | some '"' =>
    let text ← stringBody
    throw (.wrongType ("string " ++ quoted text) wanted)
  | some '[' => throw (.wrongType "sequence" wanted)
  | some '\x7b' => throw (.wrongType "map" wanted)
  | some c =>
    if c = '-' || c.isDigit then
      let value ← number
      throw (.wrongType value.display wanted)
    else throw .expectedValue
  | none => throw .expectedValue

def string : JsonReader String := do
  let c ← peekValue
  if c = '"' then stringBody else refuse "a string"

def natural : JsonReader Nat := do
  let c ← peekValue
  if c = '-' || c.isDigit then
    match ← number with
    | .natural value => return value
    | .negative value => throw (.wrongValue (JsonNumber.negative value).display "usize")
    | .real value => throw (.wrongType (JsonNumber.real value).display "usize")
  else refuse "usize"

def bool : JsonReader Bool := do
  match ← peekValue with
  | 't' =>
    word ['t', 'r', 'u', 'e']
    return true
  | 'f' =>
    word ['f', 'a', 'l', 's', 'e']
    return false
  | _ => refuse "a boolean"

/-- Whether a list goes on, looking past the comma before the next item. -/
def hasItem (first : Bool) : JsonReader Bool := do
  match ← peek with
  | none => throw .endInList
  | some ']' => return false
  | some c =>
    if first then return true
    else if c = ',' then
      advance
      match ← peek with
      | some ']' => throw .trailingComma
      | some _ => return true
      | none => throw .endInValue
    else throw .expectedListComma

def endList : JsonReader Unit := do
  match ← peek with
  | some ']' => advance
  | some ',' =>
    advance
    match ← peek with
    | some ']' => throw .trailingComma
    | _ => throw .trailingCharacters
  | some _ => throw .trailingCharacters
  | none => throw .endInList

/-- Reads at most `bound` items of a list. -/
def items {α : Type} (item : JsonReader α) : Nat → Bool → JsonReader (List α)
  | 0, _ => return []
  | bound + 1, first => do
    if ← hasItem first then
      let value ← item
      let rest ← items item bound false
      return value :: rest
    else return []

/-- Reads a list of strings. Every item takes up text, so the length of the text bounds their
number. -/
def strings : JsonReader (List String) := do
  let c ← peekValue
  if c = '[' then
    advance
    let values ← items string ((← get).length + 1) true
    endList
    return values
  else refuse "a sequence"

/-- A field of a record: its name, and how its value is read into the record. -/
structure RecordField (α : Type) where
  name : String
  read : α → JsonReader α

/-- Reads a record from a list of field values in order. -/
def listedFields {α : Type} : List (RecordField α) → Bool → α → JsonReader α
  | [], _, record => return record
  | field :: rest, first, record => do
    if ← hasItem first then
      listedFields rest false (← field.read record)
    else return record

/-- Whether an object goes on, looking past the comma before the next key. -/
def hasKey (first : Bool) : JsonReader Bool := do
  match ← peek with
  | none => throw .endInObject
  | some '\x7d' => return false
  | some c =>
    if first then
      if c = '"' then return true else throw .keyNotString
    else if c = ',' then
      advance
      match ← peek with
      | some '"' => return true
      | some '\x7d' => throw .trailingComma
      | some _ => throw .keyNotString
      | none => throw .endInValue
    else throw .expectedObjectComma

def colon : JsonReader Unit := do
  match ← peek with
  | some ':' => advance
  | some _ => throw .expectedColon
  | none => throw .endInObject

/-- Reads at most `bound` fields of an object; `seen` are the names read before. -/
def namedFields {α : Type} (fields : List (RecordField α)) :
    Nat → Bool → List String → α → JsonReader α
  | 0, _, _, record => return record
  | bound + 1, first, seen, record => do
    if ← hasKey first then
      let key ← stringBody
      match fields.find? (·.name = key) with
      | none => throw (.unknownField key (fields.map (·.name)))
      | some field =>
        if key ∈ seen then throw (.duplicateField key)
        colon
        namedFields fields bound false (key :: seen) (← field.read record)
    else return record

/-- Reads a record, starting from default values. A field is refused when it stands twice, so one
more try than there are fields suffices. -/
def record {α : Type} (kind : String) (fields : List (RecordField α)) (defaults : α) :
    JsonReader α := do
  match ← peekValue with
  | '[' =>
    advance
    let value ← listedFields fields true defaults
    endList
    return value
  | '\x7b' =>
    advance
    let value ← namedFields fields (fields.length + 1) true [] defaults
    advance
    return value
  | _ => refuse ("struct " ++ kind)

end JsonReader

open JsonReader in
def Naming.fields : List (RecordField Naming) :=
  [⟨"region_prefix", fun n => do return { n with regionStart := ← string }⟩,
   ⟨"stream_suffix", fun n => do return { n with streamSuffix := ← string }⟩,
   ⟨"stencil_suffixes", fun n => do return { n with stencilSuffixes := ← strings }⟩,
   ⟨"update_suffixes", fun n => do return { n with updateSuffixes := ← strings }⟩,
   ⟨"scalar_suffixes", fun n => do return { n with scalarSuffixes := ← strings }⟩,
   ⟨"buffer_suffix", fun n => do return { n with descriptorSuffix := ← string }⟩]

open JsonReader in
def Naming.reader : JsonReader Naming := record "NamingConventions" Naming.fields Naming.standard

open JsonReader in
def Config.fields : List (RecordField Config) :=
  [⟨"kernel_prefix", fun c => do return { c with kernelStem := ← string }⟩,
   ⟨"stream_depth", fun c => do return { c with streamDepth := ← natural }⟩,
   ⟨"naming", fun c => do return { c with naming := ← Naming.reader }⟩,
   ⟨"driver_headers", fun c => do return { c with driverHeaders := ← strings }⟩,
   ⟨"kernel_headers", fun c => do return { c with kernelHeaders := ← strings }⟩,
   ⟨"interface_pragmas", fun c => do return { c with interfacePragmas := ← bool }⟩]

open JsonReader in
def Config.reader : JsonReader Config := do
  let config ← record "HlsConfig" Config.fields Config.standard
  match ← peek with
  | none => return config
  | some _ => throw .trailingCharacters

def JsonError.message : JsonError → String
  | endInValue => "EOF while parsing a value"
  | endInObject => "EOF while parsing an object"
  | endInList => "EOF while parsing a list"
  | endInString => "EOF while parsing a string"
  | expectedColon => "expected `:`"
  | expectedListComma => "expected `,` or `]`"
  | expectedObjectComma => "expected `,` or `\x7d`"
  | expectedValue => "expected value"
  | expectedWord => "expected ident"
  | invalidEscape => "invalid escape"
  | invalidNumber => "invalid number"
  | numberOutOfRange => "number out of range"
  | controlCharacter => "control character (\\u0000-\\u001F) found while parsing a string"
  | keyNotString => "key must be a string"
  | loneSurrogate => "lone leading surrogate in hex escape"
  | brokenSurrogate => "unexpected end of hex escape"
  | trailingComma => "trailing comma"
  | trailingCharacters => "trailing characters"
  | unknownField name known =>
    "unknown field `" ++ name ++ "`, expected one of " ++
      commaSeparated (known.map fun field => "`" ++ field ++ "`")
  | duplicateField name => "duplicate field `" ++ name ++ "`"
  | wrongType found wanted => "invalid type: " ++ found ++ ", expected " ++ wanted
  | wrongValue found wanted => "invalid value: " ++ found ++ ", expected " ++ wanted

inductive ConfigError where
  | unreadable (path reason : String)
  | malformed (path : String) (cause : JsonError)
  | invalid (fault : ConfigFault)
  deriving DecidableEq

def ConfigError.message : ConfigError → String
  | unreadable path reason => "cannot read config " ++ path ++ ": " ++ reason
  | malformed path cause => "invalid config " ++ path ++ ": " ++ cause.message
  | invalid fault => "invalid config: " ++ fault.message

def Config.ofText (path text : String) : Except ConfigError Config :=
  match Config.reader text.toList with
  | .error cause => .error (.malformed path cause)
  | .ok (config, _) =>
    match config.fault? with
    | some fault => .error (.invalid fault)
    | none => .ok config

end StreamSynth
