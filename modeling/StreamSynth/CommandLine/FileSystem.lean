import StreamSynth.CommandLine.Route

/-!
# File systems

What a run needs of a file system, and why an operation on it may fail. Making a directory with
those above it is built from making one directory.
-/

namespace StreamSynth

inductive FileError where
  | notFound
  | alreadyExists
  | notDirectory
  | isDirectory
  | nameTooLong
  | nullCharacter
  | other (text : String)
  deriving DecidableEq

def FileError.message : FileError → String
  | notFound => "No such file or directory (os error 2)"
  | alreadyExists => "File exists (os error 17)"
  | notDirectory => "Not a directory (os error 20)"
  | isDirectory => "Is a directory (os error 21)"
  | nameTooLong => "File name too long (os error 36)"
  | nullCharacter => "file name contained an unexpected NUL byte"
  | other text => text

structure FileSystem (m : Type → Type) where
  readFile : String → m (Except FileError String)
  /-- Makes a directory in one that exists, unless it is there already. -/
  ensureDir : String → m (Except FileError Unit)
  writeFile : String → String → m (Except FileError Unit)

namespace FileSystem

variable {m : Type → Type} [Monad m] (fs : FileSystem m)

/-- Makes the first of the given directories. If the one it belongs in is missing, the others are
made before it in the same way. -/
def ensureDirs : List String → m (Except FileError Unit)
  | [] => return .ok ()
  | dir :: above => do
    match ← fs.ensureDir dir with
    | .error .notFound =>
      match ← ensureDirs above with
      | .ok () => fs.ensureDir dir
      | failed => return failed
    | done => return done

def makeDirs (path : String) : m (Except FileError Unit) :=
  fs.ensureDirs (path :: Route.above path)

end FileSystem

end StreamSynth
