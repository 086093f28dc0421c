import ModuleForge.Dependency
import ModuleForge.Text.Split

/-!
# Paths

Paths inside a project start at its root `/`. The normal form of a path has no empty segment, no `.`
and no `..`; a `..` at the root stays there, so no path leads out of the project.
-/

namespace ModuleForge.Path

/-- Adds a segment: nothing and `.` stay, `..` goes up. -/
def step (segments : List (List Char)) (segment : List Char) : List (List Char) :=
  if segment = [] || segment = ['.'] then segments
  else if segment = ['.', '.'] then segments.dropLast
  else segments ++ [segment]

/-- The segments of the normal form. -/
def segments (cs : List Char) : List (List Char) := (Text.splitOn '/' cs).foldl step []

/-- The path with given segments. -/
def ofSegments (segments : List (List Char)) : List Char := '/' :: ['/'].intercalate segments

/-- **The normal form of a path.** -/
def normalize (path : String) : String := String.ofList (ofSegments (segments path.toList))

/-- The directory of a path: what stands before the last slash, and the root if nothing does. -/
def dirname (path : String) : String :=
  match Dependency.beforeLastSlash? path.toList with
  | none => "/"
  | some [] => "/"
  | some before => String.ofList before

/-- Follows a path from a base; an absolute path does not care for the base. -/
def join (base relative : String) : String :=
  if relative.toList.head? = some '/' then normalize relative
  else normalize (base ++ "/" ++ relative)

/-- The text ends in another. -/
def endsWith (path ending : String) : Bool := ending.toList.isSuffixOf path.toList

end ModuleForge.Path
