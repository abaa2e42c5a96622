/-!
# Routes and places

A path is a text that leads by names from one directory to the next. A route is a path read into
these names, and a place is where a route ends.
-/

namespace StreamSynth

structure Route where
  /-- Whether the path starts at the top of the file system. -/
  fromTop : Bool
  names : List String
  /-- Whether a separator ends the path, as only that of a directory may have. -/
  toDirectory : Bool
  deriving DecidableEq

namespace Route

def pieces : List Char → List (List Char)
  | [] => [[]]
  | c :: rest =>
    match pieces rest with
    | [] => [[]]
    | piece :: others => if c = '/' then [] :: piece :: others else (c :: piece) :: others

/-- Reads a path. Separators may be repeated. -/
def ofPath (path : String) : Route where
  fromTop := path.toList.head? = some '/'
  names := ((pieces path.toList).filter (!·.isEmpty)).map String.ofList
  toDirectory := path.toList.getLast? = some '/'

def toPath (r : Route) : String :=
  (if r.fromTop then "/" else "") ++ "/".intercalate r.names ++
    (if r.toDirectory ∧ r.names ≠ [] then "/" else "")

/-- The beginnings of a list, longest first, without the list itself and the empty one. -/
def initials : List String → List (List String)
  | [] => []
  | [_] => []
  | name :: rest => (initials rest).map (name :: ·) ++ [[name]]

/-- The paths of the directories above a path, nearest first. Single points name no directory of
their own. -/
def above (path : String) : List String :=
  let r := ofPath path
  (initials (r.names.filter (· ≠ "."))).map fun names => toPath ⟨r.fromTop, names, false⟩

end Route

inductive Origin where
  | top
  /-- The working directory, or one a number of levels above it. -/
  | working (levels : Nat)
  deriving DecidableEq

structure Place where
  origin : Origin
  names : List String
  deriving DecidableEq

namespace Place

/-- The directory that a place is in. The top is in itself. -/
def parent : Place → Place
  | ⟨.top, []⟩ => ⟨.top, []⟩
  | ⟨.working levels, []⟩ => ⟨.working (levels + 1), []⟩
  | ⟨origin, name :: rest⟩ => ⟨origin, (name :: rest).dropLast⟩

def go (p : Place) (name : String) : Place :=
  if name = "." then p
  else if name = ".." then p.parent
  else ⟨p.origin, p.names ++ [name]⟩

def parents (p : Place) : List Place :=
  (List.range p.names.length).map fun n => ⟨p.origin, p.names.take n⟩

end Place

namespace Route

def start (r : Route) : Place := ⟨if r.fromTop then .top else .working 0, []⟩

/-- The end of a route on which every name is that of a directory. -/
def destination (r : Route) : Place := r.names.foldl Place.go r.start

end Route

end StreamSynth
