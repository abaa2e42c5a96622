import StreamSynth.CommandLine.FileSystem
import StreamSynth.Text.ByteLength

/-!
# File trees

A `FileTree` is a file system as a value. It holds the files and directories below the working
directory, and those that a run reaches beside it.
-/

namespace StreamSynth

structure FileTree where
  files : List (Place × String)
  dirs : List Place

namespace FileTree

/-- The origin of places is always a directory. -/
def isDir (t : FileTree) (p : Place) : Bool := p.names.isEmpty || p ∈ t.dirs

def file? (t : FileTree) (p : Place) : Option String := t.files.lookup p

def nameLimit : Nat := 255

def pathLimit : Nat := 4096

/-- Goes from a place, which must be a directory, by one name. What it leads to may be missing. -/
def step (t : FileTree) (p : Place) (name : String) : Except FileError Place :=
  if t.isDir p then
    if byteLength name.toList ≤ nameLimit then .ok (p.go name) else .error .nameTooLong
  else if (t.file? p).isSome then .error .notDirectory
  else .error .notFound

/-- The place that a path leads to. It may be missing, but what comes before it is there. -/
def locate (t : FileTree) (path : String) : Except FileError Place :=
  let r := Route.ofPath path
  if path.toList.contains (Char.ofNat 0) then .error .nullCharacter
  else if path.isEmpty then .error .notFound
  else if pathLimit ≤ byteLength path.toList then .error .nameTooLong
  else r.names.foldlM t.step r.start

def read (t : FileTree) (path : String) : Except FileError String := do
  let place ← t.locate path
  if t.isDir place then throw .isDirectory
  match t.file? place with
  | none => throw .notFound
  | some text => if (Route.ofPath path).toDirectory then throw .notDirectory else return text

def put (t : FileTree) (p : Place) (text : String) : FileTree :=
  { t with files := (p, text) :: t.files.filter (·.1 ≠ p) }

def write (t : FileTree) (path text : String) : Except FileError FileTree := do
  let place ← t.locate path
  if t.isDir place || (Route.ofPath path).toDirectory then throw .isDirectory
  return t.put place text

/-- Makes a directory in one that exists, unless it is there already. -/
def ensureDir (t : FileTree) (path : String) : Except FileError FileTree := do
  let place ← t.locate path
  if t.isDir place then return t
  if (t.file? place).isSome then throw .alreadyExists
  return { t with dirs := place :: t.dirs }

def change (operation : FileTree → Except FileError FileTree) :
    StateM FileTree (Except FileError Unit) := fun t =>
  match operation t with
  | .ok t => (.ok (), t)
  | .error e => (.error e, t)

def system : FileSystem (StateM FileTree) where
  readFile path := fun t => (t.read path, t)
  ensureDir path := change (·.ensureDir path)
  writeFile path text := change (·.write path text)

/-- What every machine has: directories for devices and for passing files, and the device that
reads as an empty file. -/
def bare : FileTree where
  files := [(⟨.top, ["dev", "null"]⟩, "")]
  dirs := [⟨.top, ["dev"]⟩, ⟨.top, ["tmp"]⟩]

def ofFiles (files : List (String × String)) : FileTree :=
  let placed := files.map fun (path, text) => ((Route.ofPath path).destination, text)
  { files := placed ++ bare.files
    dirs := (placed.flatMap fun (place, _) => place.parents) ++ bare.dirs }

/-- The files below the working directory that are new or changed since `before`, by path. -/
def changes (before after : FileTree) : List (String × String) :=
  (after.files.filter fun (place, text) =>
    place.origin = .working 0 ∧ before.file? place ≠ some text).map
    fun (place, text) => ("/".intercalate place.names, text)

end FileTree

end StreamSynth
