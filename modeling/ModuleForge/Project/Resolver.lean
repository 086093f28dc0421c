import ModuleForge.Project.Description
import ModuleForge.Project.FileTree

/-!
# Finding modules

Which file a module specifier means. A relative or absolute specifier is a path; any other one names an
installed package, and perhaps a file in it. A path may leave out the ending of a file, or mean a
directory: then its description says where it starts, and else its index file does.

The description of a directory can lead to another directory, and so on. Directories that lead to each
other in a circle never come to an end (`Probe.endless`).
-/

namespace ModuleForge

namespace Resolver

/-- What a specifier means. -/
inductive Target where
  | localFile (path : String)
  /-- A module that the environment provides. -/
  | builtin (name : String)
  /-- A file of an installed package. -/
  | package (path : String)
  deriving DecidableEq, Repr, Inhabited

/-- Why a specifier means nothing. -/
inductive Error where
  | notFound (specifier source target : String)
  | packageNotFound (name : String)
  /-- The descriptions of directories lead in a circle. -/
  | endless (target : String)
  deriving DecidableEq, Repr, Inhabited

def Error.message : Error → String
  | .notFound specifier source target =>
    "module not found: " ++ specifier ++ " from " ++ source ++ " (tried " ++ target ++
      " with js, mjs, cjs, json and index files)"
  | .packageNotFound name => "package '" ++ name ++ "' is not installed"
  | .endless target => "package entries of " ++ target ++ " lead in a circle"

/-- What the search for a file comes to. -/
inductive Probe where
  | found (path : String)
  | missing
  | endless
  deriving DecidableEq, Repr, Inhabited

/-! ## Files -/

/-- The endings of modules, in the order they are tried. -/
def extensions : List String := ["js", "mjs", "cjs", "json"]

/-- The file itself, or with the first ending that fits. -/
def fileAt? (t : FileTree) (target : String) : Option String :=
  (target :: extensions.map fun e => target ++ "." ++ e).find? t.isFile

/-- The index file of a directory. -/
def indexOf? (t : FileTree) (target : String) : Option String :=
  (extensions.map fun e => target ++ "/index." ++ e).find? t.isFile

/-- Where the description of a directory says that it starts; a description that leads to its own
directory says nothing. -/
def entryOf? (t : FileTree) (target : String) : Option String := do
  let text ← t.read? (Path.join target "package.json")
  let entry ← (← Description.parse? text).entryPoint?
  let path := Path.join target entry
  if path = target then none else some path

/-- The file that a path means, following at most `redirects` descriptions. -/
def probeWithin (t : FileTree) : (redirects : Nat) → (target : String) → Probe
  | 0, _ => .endless
  | redirects + 1, target =>
    match fileAt? t target with
    | some path => .found path
    | none =>
      if !t.isDirectory target then .missing
      else
        let index : Probe := ((indexOf? t target).map .found).getD .missing
        match entryOf? t target with
        | none => index
        | some entry =>
          match probeWithin t redirects entry with
          | .found path => .found path
          | .missing => index
          | .endless => .endless

/-- **The file that a path means.** Every description is a file, so more descriptions than files lead
in a circle. -/
def probe (t : FileTree) (target : String) : Probe := probeWithin t (t.size + 2) target

/-! ## Specifiers -/

/-- The modules that every environment provides. -/
def builtins : List String :=
  ["fs", "path", "http", "https", "os", "process", "events", "url", "crypto", "util", "stream",
    "buffer", "child_process", "net", "tls", "dns", "querystring", "assert", "zlib"]

/-- A specifier without the mark of a module that the environment provides. -/
def withoutMark (specifier : String) : String :=
  match Text.dropStart? "node:".toList specifier.toList with
  | some rest => String.ofList rest
  | none => specifier

/-- A path from the directory of the module that has the specifier. -/
def isRelative (specifier : String) : Bool :=
  let cs := specifier.toList
  ['.', '/'].isPrefixOf cs || ['.', '.', '/'].isPrefixOf cs || cs = ['.'] || cs = ['.', '.']

/-- What stands before and behind the first slash. -/
def splitSlash? (cs : List Char) : Option (List Char × List Char) := Text.splitOnce? ['/'] cs

/-- The name of a package, and the path inside it. The name in a scope has a slash of its own. -/
def splitPackage (specifier : String) : String × Option String :=
  let cs := specifier.toList
  let parts : Option (List Char × List Char) :=
    if cs.head? = some '@' then do
      let (scope, rest) ← splitSlash? cs
      let (name, path) ← splitSlash? rest
      some (scope ++ '/' :: name, path)
    else splitSlash? cs
  match parts with
  | some (name, path) => (String.ofList name, some (String.ofList path))
  | none => (specifier, none)

end Resolver

/-- One who finds modules. -/
structure Resolver where
  /-- The directory of installed packages, in normal form. -/
  root : String

namespace Resolver

def ofRoot (dependencyRoot : String) : Resolver := ⟨Path.normalize dependencyRoot⟩

/-- A file of an installed package. -/
def isPackagePath (r : Resolver) (path : String) : Bool :=
  (r.root ++ "/").toList.isPrefixOf path.toList

/-- What a path means to the module `source` that has the specifier. -/
def resolveFile (r : Resolver) (t : FileTree) (target specifier source : String) :
    Except Error Target :=
  match probe t target with
  | .found path => .ok (if r.isPackagePath path then .package path else .localFile path)
  | .missing => .error (.notFound specifier source target)
  | .endless => .error (.endless target)

/-- What a specifier that names a package means. -/
def resolvePackage (r : Resolver) (t : FileTree) (specifier source : String) :
    Except Error Target :=
  let (name, path) := splitPackage specifier
  let directory := Path.join r.root name
  if !t.isDirectory directory then .error (.packageNotFound name)
  else
    let target := (path.map (Path.join directory)).getD directory
    r.resolveFile t target specifier source

/-- **What a specifier means** in the module `source`. -/
def resolve (r : Resolver) (t : FileTree) (specifier source : String) : Except Error Target :=
  let bare := withoutMark specifier
  if builtins.contains bare then .ok (.builtin bare)
  else if isRelative specifier then
    r.resolveFile t (Path.join (Path.dirname source) specifier) specifier source
  else if specifier.toList.head? = some '/' then
    r.resolveFile t (Path.normalize specifier) specifier source
  else r.resolvePackage t specifier source

end Resolver

end ModuleForge
