import ModuleForge.Package.Manifest
import ModuleForge.Project.Path

/-!
# The files of a project

The texts of a project and of the packages that it needs, by their paths. All paths are in normal
form. A directory is there if a file lies below it.
-/

namespace ModuleForge

/-- Texts by path. -/
structure FileTree where
  files : Dictionary String := {}
  deriving Inhabited

namespace FileTree

/-- Puts a text at a path. -/
def insert (t : FileTree) (path content : String) : FileTree :=
  ⟨t.files.insert (Path.normalize path) content⟩

/-- Puts every file of a manifest at its path. -/
def overlay (t : FileTree) (m : Manifest) : FileTree :=
  m.contents.entries.foldl (fun t (path, file) => t.insert path file.content) t

/-- A segment that is not looked into: hidden, or the installed packages. -/
def isSkipped (segment : String) : Bool :=
  segment.toList.head? = some '.' || segment == "node_modules"

/-- The texts among the files of a directory, each given by the segments of its path. -/
def ofDirectory (files : List (List String × ByteArray)) : FileTree :=
  let add (t : FileTree) (file : List String × ByteArray) : FileTree :=
    if file.1.any isSkipped then t
    else
      match String.fromUTF8? file.2 with
      | some text => t.insert ("/" ++ String.intercalate "/" file.1) text
      | none => t
  files.foldl add {}

def read? (t : FileTree) (path : String) : Option String := t.files.find? path

def isFile (t : FileTree) (path : String) : Bool := t.files.contains path

def size (t : FileTree) : Nat := t.files.size

def isEmpty (t : FileTree) : Bool := t.files.isEmpty

/-- How the paths of all files below a directory start. -/
def startOf (directory : String) : String :=
  let path := Path.normalize directory
  if Path.endsWith path "/" then path else path ++ "/"

/-- The paths at and behind the place of a text in their order. -/
def pathsFrom (t : FileTree) (start : String) : List String :=
  t.files.keys.dropWhile (· < start)

/-- **All files below a directory**, at any depth: the paths behind its place, as long as they start
with it. -/
def filesIn (t : FileTree) (directory : String) : List String :=
  let start := startOf directory
  (t.pathsFrom start).takeWhile fun path => start.toList.isPrefixOf path.toList

/-- A file lies below the path: the first path behind its place starts with it. -/
def isDirectory (t : FileTree) (path : String) : Bool :=
  let start := startOf path
  (t.pathsFrom start).head?.any fun path => start.toList.isPrefixOf path.toList

end FileTree

end ModuleForge
