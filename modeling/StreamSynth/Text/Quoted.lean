import StreamSynth.Text.Unprintable

/-!
# Quoted text

A text is quoted by putting it between double quotes and escaping what cannot stand there as
itself: quotes, backslashes, the usual control characters by letter, and characters without a
glyph of their own by code point.
-/

namespace StreamSynth.Quoted

/-- An escape by code point, in lower-case hexadecimal without leading zeros. -/
def codePointEscape (c : Char) : List Char :=
  '\\' :: 'u' :: '\x7b' :: Nat.toDigits 16 c.toNat ++ ['\x7d']

def escape (c : Char) : List Char :=
  if c = '"' then ['\\', '"']
  else if c = '\\' then ['\\', '\\']
  else if c = '\n' then ['\\', 'n']
  else if c = '\r' then ['\\', 'r']
  else if c = '\t' then ['\\', 't']
  else if c.toNat = 0 then ['\\', '0']
  else if c.toNat < 32 ∨ c.toNat = 127 then codePointEscape c
  else if c.toNat < 127 then [c]
  else if isUnprintable c then codePointEscape c
  else [c]

def chars (text : List Char) : List Char :=
  '"' :: text.flatMap escape ++ ['"']

end StreamSynth.Quoted

namespace StreamSynth

def quoted (text : String) : String := String.ofList (Quoted.chars text.toList)

end StreamSynth
