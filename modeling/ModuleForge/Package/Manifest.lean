import ModuleForge.Json.Decode

/-!
# Manifests

A manifest holds every file of a set of packages, and which packages they are. This module has its
type and its JSON form. All fields may be missing, apart from the name and the version of a package.
-/

namespace ModuleForge

namespace Manifest

/-- A file of a package. -/
structure File where
  content : String := ""
  /-- The modules that it loads, if they are known. -/
  requires : Option (List String) := none
  deriving DecidableEq, Repr, Inhabited

/-- A package that was asked for. -/
structure Package where
  name : String
  version : String
  deriving DecidableEq, Repr, Inhabited

/-- A package that another package needs. -/
structure Transitive where
  semver : String := ""
  resolved : String := ""
  parents : List String := []
  entries : List String := []
  deriving DecidableEq, Repr, Inhabited

end Manifest

/-- The files of a set of packages. -/
structure Manifest where
  /-- The files by path, below the directory of installed packages. -/
  contents : Dictionary Manifest.File := {}
  packages : List Manifest.Package := []
  /-- Whatever is known about other names of the packages. -/
  aliases : Dictionary Json := {}
  transitive : Dictionary Manifest.Transitive := {}
  deriving Inhabited

namespace Manifest

/-! ## JSON -/

def File.encode (f : File) : Json :=
  .object [("content", .string f.content), ("requires", .ofOption .ofStrings f.requires)]

def File.decode (j : Json) : Option File := do
  match ← j.slots ["content", "requires"] with
  | [content, requires] =>
    some ⟨← content.orElse Json.decodeString "",
      ← requires.orElse (Json.decodeOption (Json.decodeList Json.decodeString)) none⟩
  | _ => none

def Package.encode (p : Package) : Json :=
  .object [("name", .string p.name), ("version", .string p.version)]

def Package.decode (j : Json) : Option Package := do
  match ← j.slots ["name", "version"] with
  | [name, version] =>
    some ⟨← name.required Json.decodeString, ← version.required Json.decodeString⟩
  | _ => none

def Transitive.encode (t : Transitive) : Json :=
  .object [("semver", .string t.semver), ("resolved", .string t.resolved),
    ("parents", .ofStrings t.parents), ("entries", .ofStrings t.entries)]

def Transitive.decode (j : Json) : Option Transitive := do
  match ← j.slots ["semver", "resolved", "parents", "entries"] with
  | [semver, resolved, parents, entries] =>
    some ⟨← semver.orElse Json.decodeString "", ← resolved.orElse Json.decodeString "",
      ← parents.orElse (Json.decodeList Json.decodeString) [],
      ← entries.orElse (Json.decodeList Json.decodeString) []⟩
  | _ => none

def encode (m : Manifest) : Json :=
  .object [("contents", .ofMap File.encode m.contents.entries),
    ("dependencies", .array (m.packages.map Package.encode)),
    ("dependencyAliases", .object m.aliases.entries),
    ("dependencyDependencies", .ofMap Transitive.encode m.transitive.entries)]

/-- Aliases are kept as they are, two levels below the manifest. -/
def decode (j : Json) : Option Manifest := do
  match ← j.slots ["contents", "dependencies", "dependencyAliases", "dependencyDependencies"] with
  | [contents, packages, aliases, transitive] =>
    some ⟨← contents.orElse (Json.decodeDictionary File.decode) {},
      ← packages.orElse (Json.decodeList Package.decode) [],
      ← aliases.orElse (Json.decodeDictionary (Json.decodeKept 2)) {},
      ← transitive.orElse (Json.decodeDictionary Transitive.decode) {}⟩
  | _ => none

/-- The number of files. -/
def fileCount (m : Manifest) : Nat := m.contents.size

end Manifest

end ModuleForge
