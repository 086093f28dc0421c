import ModuleForge.Command.Run

/-!
# The program

The command line of the library on the files of the machine it runs on. There is no transport for
requests: every one of them fails. The files of a project that is built are named on standard input.
-/

namespace ModuleForge.Main

/-- The error that the system reports, in the terms of the library. -/
def hostError : IO.Error → Host.Error
  | .noFileOrDirectory .. => .notFound
  | .noSuchThing .. => .notFound
  | .alreadyExists .. => .present
  | .inappropriateType _ code _ => if code = 21 then .isDirectory else .notDirectory
  | e => .other (toString e)

/-- Runs an action of the system. -/
def attempt {α : Type} (action : IO α) : IO (Except Host.Error α) := do
  try
    pure (.ok (← action))
  catch e => pure (.error (hostError e))

/-- Something can be opened at the path. -/
def isPresent (path : String) : IO Bool := do
  pure (← attempt (IO.FS.Handle.mk path .read)).toOption.isSome

/-- The names of files on standard input, one a line. -/
partial def listedNames (input : IO.FS.Stream) : IO (List String) := do
  let line ← input.getLine
  if line.isEmpty then pure []
  else
    let name := String.ofList (Text.trim line.toList)
    let rest ← listedNames input
    pure (if name.isEmpty then rest else name :: rest)

/-- The files below a directory that standard input names by their paths from there. -/
def listedFiles (directory : String) : IO (List (List String × ByteArray)) := do
  let mut files := []
  for name in ← listedNames (← IO.getStdin) do
    match ← attempt (IO.FS.readBinFile (directory ++ "/" ++ name)) with
    | .ok bytes =>
      let segments := (Disk.partsOf name).filter fun part => part ≠ "" && part ≠ "."
      files := files ++ [(segments, bytes)]
    | .error _ => pure ()
  pure files

/-- The files of the machine. Directories are not listed: standard input says what is in them. -/
def host : Host IO where
  readFile path := attempt (IO.FS.readBinFile path)
  isPresent := isPresent
  readDirectory path := do
    match ← attempt (IO.FS.readBinFile path) with
    | .ok _ => pure (.error .notDirectory)
    | .error .isDirectory => attempt (listedFiles path)
    | .error e => pure (.error e)
  writeFile path bytes := attempt (IO.FS.writeBinFile path bytes)
  makeDirectory path :=
    if path.isEmpty then pure (.ok ()) else attempt (IO.FS.createDirAll path)

end ModuleForge.Main

open ModuleForge in
/-- Runs the program with its arguments. -/
def main (args : List String) : IO UInt32 := do
  let outcome ← Command.runArguments Main.host Network.offline args
  IO.print outcome.stdout
  for d in outcome.diagnostics do
    IO.print d.text
  IO.eprint outcome.stderr
  pure outcome.code.toUInt32
