import StreamSynth.CommandLine.Run

/-!
# The program

The command line on the file system of the machine.
-/

namespace StreamSynth

def failureNumber (code : UInt32) : UInt32 := min code (0 - code)

def FileError.ofError (e : IO.Error) : FileError :=
  match e with
  | .noFileOrDirectory .. => .notFound
  | .alreadyExists .. => .alreadyExists
  | .inappropriateType _ code _ =>
    if failureNumber code = 20 then .notDirectory else .isDirectory
  | .invalidArgument _ code _ =>
    if failureNumber code = 36 then .nameTooLong
    else if failureNumber code = 22 then .nullCharacter
    else .other (toString e)
  | .userError _ => .other "stream did not contain valid UTF-8"
  | _ => .other (toString e)

def attempt {α : Type} (action : IO α) : IO (Except FileError α) := do
  try
    return .ok (← action)
  catch e =>
    return .error (FileError.ofError e)

/-- Makes a directory in one that exists. What is there already has to be a directory, and then
there is nothing left to make. -/
def ensureDir (path : String) : IO (Except FileError Unit) := do
  match ← attempt (IO.FS.createDir path) with
  | .error .alreadyExists => attempt (IO.FS.createDirAll path)
  | result => return result

def machine : FileSystem IO where
  readFile path := attempt (IO.FS.readFile path)
  ensureDir := ensureDir
  writeFile path text := attempt (IO.FS.writeFile path text)

end StreamSynth

def main (args : List String) : IO UInt32 := do
  let result ← StreamSynth.run StreamSynth.machine args
  for message in result.stderr do
    IO.eprintln message
  IO.print result.stdout
  return result.exitCode.toUInt32
