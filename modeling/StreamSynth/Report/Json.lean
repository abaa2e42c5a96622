import StreamSynth.Text.Join

/-!
# JSON text

Documents of truth values, naturals, texts, lists and objects, written either compactly or over
several lines. Quotes, backslashes and control characters are escaped in texts, and nothing else.
-/

namespace StreamSynth

inductive Json where
  | bool (value : Bool)
  | nat (value : Nat)
  | string (text : String)
  | list (items : List Json)
  | object (fields : List (String × Json))

namespace Json

def hexPair (n : Nat) : List Char := [Nat.digitChar (n / 16), Nat.digitChar (n % 16)]

def escape (c : Char) : List Char :=
  if c = '"' then ['\\', '"']
  else if c = '\\' then ['\\', '\\']
  else if c = '\x08' then ['\\', 'b']
  else if c = '\t' then ['\\', 't']
  else if c = '\n' then ['\\', 'n']
  else if c = '\x0c' then ['\\', 'f']
  else if c = '\r' then ['\\', 'r']
  else if c.toNat < 32 then ['\\', 'u', '0', '0'] ++ hexPair c.toNat
  else [c]

def quote (text : String) : String :=
  String.ofList ('"' :: text.toList.flatMap escape ++ ['"'])

mutual

def compact : Json → String
  | bool value => if value then "true" else "false"
  | nat value => toString value
  | string text => quote text
  | list items => "[" ++ joinWith "," (compactAll items) ++ "]"
  | object fields => "\x7b" ++ joinWith "," (compactFields fields) ++ "\x7d"

def compactAll : List Json → List String
  | [] => []
  | item :: rest => item.compact :: compactAll rest

def compactFields : List (String × Json) → List String
  | [] => []
  | (key, value) :: rest => (quote key ++ ":" ++ value.compact) :: compactFields rest

end

/-- Pieces on lines of their own between brackets, two blanks further in than `level`. -/
def bracketLines (opening closing : String) (level : Nat) (pieces : List String) : String :=
  if pieces.isEmpty then opening ++ closing
  else
    let newline (level : Nat) := "\n" ++ String.ofList (List.replicate (2 * level) ' ')
    opening ++ newline (level + 1) ++ joinWith ("," ++ newline (level + 1)) pieces ++
      newline level ++ closing

mutual

/-- The document with an item or field to a line, `level` steps in. -/
def pretty (level : Nat) : Json → String
  | bool value => if value then "true" else "false"
  | nat value => toString value
  | string text => quote text
  | list items => bracketLines "[" "]" level (prettyAll (level + 1) items)
  | object fields => bracketLines "\x7b" "\x7d" level (prettyFields (level + 1) fields)

def prettyAll (level : Nat) : List Json → List String
  | [] => []
  | item :: rest => item.pretty level :: prettyAll level rest

def prettyFields (level : Nat) : List (String × Json) → List String
  | [] => []
  | (key, value) :: rest =>
    (quote key ++ ": " ++ value.pretty level) :: prettyFields level rest

end

end Json

end StreamSynth
