/-!
# Beginnings and ends of names

Names are classified by how they begin and end. All functions work on the characters of a name.
-/

namespace StreamSynth

def endsIn (name suffix : String) : Bool := suffix.toList.isSuffixOf name.toList

def beforeSuffix? (name suffix : String) : Option String :=
  if endsIn name suffix then
    some (String.ofList (name.toList.take (name.toList.length - suffix.toList.length)))
  else none

def afterStart? (name start : String) : Option String :=
  if start.toList.isPrefixOf name.toList then
    some (String.ofList (name.toList.drop start.toList.length))
  else none

/-- The part of a text before the first occurrence of `pattern`, the whole text without one. -/
def charsBefore (pattern : List Char) : List Char → List Char
  | [] => []
  | c :: rest => if pattern.isPrefixOf (c :: rest) then [] else c :: charsBefore pattern rest

def beforeFirst (name pattern : String) : String :=
  String.ofList (charsBefore pattern.toList name.toList)

/-- The name without a last group of a point and decimal digits, if it has one. -/
def withoutIndex (name : String) : String :=
  let reversed := name.toList.reverse
  let group := reversed.takeWhile (· ≠ '.')
  match reversed.drop group.length with
  | '.' :: head =>
    if group.isEmpty || !group.all Char.isDigit then name else String.ofList head.reverse
  | _ => name

end StreamSynth
