import ModuleForge.Dictionary
import ModuleForge.Text.Split

/-!
# Hosts

What the program needs from the system it runs on: reading and writing files. `Disk.host` is a host
that holds its files as data; paths on it start at the working directory.
-/

namespace ModuleForge

namespace Host

/-- Why a file cannot be used. -/
inductive Error where
  | notFound
  | present
  | notDirectory
  | isDirectory
  /-- The content is not UTF-8. -/
  | notText
  | other (message : String)
  deriving DecidableEq, Repr, Inhabited

def Error.message : Error → String
  | .notFound => "No such file or directory (os error 2)"
  | .present => "File exists (os error 17)"
  | .notDirectory => "Not a directory (os error 20)"
  | .isDirectory => "Is a directory (os error 21)"
  | .notText => "stream did not contain valid UTF-8"
  | .other m => m

end Host

/-- A system with files. -/
structure Host (m : Type → Type) where
  readFile : (path : String) → m (Except Host.Error ByteArray)
  /-- A file or directory is there. -/
  isPresent : (path : String) → m Bool
  /-- All files below a directory, each with the segments of its path from there. -/
  readDirectory : (path : String) → m (Except Host.Error (List (List String × ByteArray)))
  writeFile : (path : String) → ByteArray → m (Except Host.Error Unit)
  /-- Makes a directory and all around it. -/
  makeDirectory : (path : String) → m (Except Host.Error Unit)

/-- The text of a file. -/
def Host.readText {m : Type → Type} [Monad m] (host : Host m) (path : String) :
    m (Except Host.Error String) := do
  match ← host.readFile path with
  | .error e => pure (.error e)
  | .ok bytes =>
    match String.fromUTF8? bytes with
    | some text => pure (.ok text)
    | none => pure (.error .notText)

/-! ## Files as data -/

/-- Files and directories by their paths from the working directory. -/
structure Disk where
  files : Dictionary ByteArray := {}
  directories : List String := []
  deriving Inhabited

namespace Disk

open Host (Error)

/-- The path with given segments. -/
def pathOf (segments : List String) : String := String.intercalate "/" segments

/-- A file lies below the directory. -/
def isAbove (path file : String) : Bool := (path ++ "/").toList.isPrefixOf file.toList

def isDirectory (d : Disk) (segments : List String) : Bool :=
  let path := pathOf segments
  segments.isEmpty || d.directories.contains path || d.files.keys.any (isAbove path) ||
    d.directories.any (isAbove path)

def isFile (d : Disk) (segments : List String) : Bool := d.files.contains (pathOf segments)

/-- Follows the parts of a path from a directory. Nothing is known outside of the working
directory. -/
def follow (d : Disk) (here : List String) : List String → Except Error (List String)
  | [] => .ok here
  | part :: rest =>
    if d.isFile here then .error .notDirectory
    else if part = "" || part = "." then follow d here rest
    else if part = ".." then
      if here.isEmpty then .error .notFound else follow d here.dropLast rest
    else
      let next := here ++ [part]
      if d.isFile next || d.isDirectory next then follow d next rest else .error .notFound

/-- The parts of a path. -/
def partsOf (path : String) : List String := (Text.splitOn '/' path.toList).map String.ofList

/-- The segments of what is at a path. -/
def locate (d : Disk) (path : String) : Except Error (List String) :=
  if path.isEmpty || path.toList.head? = some '/' then .error .notFound
  else d.follow [] (partsOf path)

def readFile (d : Disk) (path : String) : Except Error ByteArray := do
  let segments ← d.locate path
  match d.files.find? (pathOf segments) with
  | some bytes => .ok bytes
  | none => .error .isDirectory

def isPresent (d : Disk) (path : String) : Bool :=
  match d.locate path with
  | .ok _ => true
  | .error _ => false

def readDirectory (d : Disk) (path : String) : Except Error (List (List String × ByteArray)) := do
  let segments ← d.locate path
  if d.isFile segments then .error .notDirectory
  else
    let below (file : String × ByteArray) : Option (List String × ByteArray) :=
      let parts := partsOf file.1
      if segments.isPrefixOf parts then some (parts.drop segments.length, file.2) else none
    .ok (d.files.entries.filterMap below)

/-- The place of a new file or directory: that of the directory around it, and its name. -/
def splitPath (path : String) : List String × String :=
  let parts := (partsOf path).filter fun part => part ≠ "" && part ≠ "."
  (parts.dropLast, parts.getLast?.getD "")

/-- The path can only mean a directory: behind its last slash stands no name. -/
def namesDirectory (path : String) : Bool :=
  (partsOf path).getLast?.any fun part => part = "" || part = "." || part = ".."

def writeFile (d : Disk) (path : String) (bytes : ByteArray) : Except Error Disk :=
  if path.isEmpty then .error .notFound
  else do
    let (around, name) := splitPath path
    let here ← d.follow [] around
    let segments := here ++ [name]
    if d.isFile here then .error .notDirectory
    else if namesDirectory path || d.isDirectory segments then .error .isDirectory
    else .ok { d with files := d.files.insert (pathOf segments) bytes }

/-- Makes a directory step by step; a file in the way stops it. -/
def makeFrom (d : Disk) (here : List String) : List String → Except Error Disk
  | [] => .ok d
  | part :: rest =>
    if part = "" || part = "." then makeFrom d here rest
    else if part = ".." then makeFrom d here.dropLast rest
    else
      let next := here ++ [part]
      if d.isFile next then .error (if rest.isEmpty then .present else .notDirectory)
      else if d.isDirectory next then makeFrom d next rest
      else makeFrom { d with directories := d.directories ++ [pathOf next] } next rest

def makeDirectory (d : Disk) (path : String) : Except Error Disk := d.makeFrom [] (partsOf path)

/-- Takes over the disk behind a step that succeeds. -/
def update (result : Disk → Except Error Disk) : StateM Disk (Except Error Unit) := fun d =>
  match result d with
  | .ok d => (.ok (), d)
  | .error e => (.error e, d)

/-- **The host of a disk.** -/
def host : Host (StateM Disk) where
  readFile path := fun d => (d.readFile path, d)
  isPresent path := fun d => (d.isPresent path, d)
  readDirectory path := fun d => (d.readDirectory path, d)
  writeFile path bytes := update (·.writeFile path bytes)
  makeDirectory path := update (·.makeDirectory path)

end Disk

end ModuleForge
