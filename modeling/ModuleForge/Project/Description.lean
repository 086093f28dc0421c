import ModuleForge.Json.Decode
import ModuleForge.Json.Reader
import ModuleForge.Task

/-!
# The description of a package

What a file `package.json` says about a package: its name, where it starts, and what it needs.
-/

namespace ModuleForge

structure Description where
  name : String := ""
  version : String := ""
  main : Option String := none
  module : Option String := none
  dependencies : Dictionary String := {}
  devDependencies : Dictionary String := {}
  deriving DecidableEq, Inhabited

namespace Description

/-- The file that the package starts with: its module form before its other form. An empty name is
none. -/
def entryPoint? (d : Description) : Option String :=
  (d.module.or d.main).filter fun entry => !entry.isEmpty

/-- The packages that it asks for. -/
def dependencyLists (d : Description) : DependencyLists := ⟨d.dependencies, d.devDependencies⟩

def decode (j : Json) : Option Description := do
  let texts := Json.decodeDictionary Json.decodeString
  match ← j.slots ["name", "version", "main", "module", "dependencies", "devDependencies"] with
  | [name, version, main, module, dependencies, devDependencies] =>
    some ⟨← name.orElse Json.decodeString "", ← version.orElse Json.decodeString "",
      ← main.orElse (Json.decodeOption Json.decodeString) none,
      ← module.orElse (Json.decodeOption Json.decodeString) none,
      ← dependencies.orElse texts {}, ← devDependencies.orElse texts {}⟩
  | _ => none

/-- **The description that a text denotes.** -/
def parse? (text : String) : Option Description := Json.parse text >>= decode

end Description

end ModuleForge
