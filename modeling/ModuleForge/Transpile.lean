import ModuleForge.Scan
import ModuleForge.Task.Transform

/-!
# Transpiling one module

A transpiler decides what happens to a module. One inside the directory of installed packages is
brought to CommonJS form right away. CommonJS code that may stay as it is passes through, and only its
calls of `require` are recorded. Everything else becomes a task.

What is found out about a module is recorded in its context: the modules that it loads, the directories
it may load any file from, and the errors.
-/

namespace ModuleForge

namespace Transpile

/-- How a module is to be treated. -/
structure Options where
  /-- CommonJS code passes through. -/
  simpleRequire : Bool := false
  /-- The target, if it is not to follow from the project's packages. -/
  target : Option Task.Target := none
  settings : Option Task.Settings := none
  package : Option DependencyLists := none
  deriving Inhabited

/-- What is known about a module. -/
structure Context where
  path : String
  moduleId : String
  options : Options := {}
  /-- The modules that it loads, each once, in order of appearance. -/
  dependencies : List String := []
  /-- The directories that it may load any file from. -/
  directories : List String := []
  errors : List Task.Error := []
  deriving Inhabited

namespace Context

/-- A fresh context; the module is identified by its path. -/
def ofPath (path : String) (options : Options := {}) : Context :=
  { path, moduleId := path, options }

/-- Appends an item unless it is there already. -/
def addOnce (items : List String) (item : String) : List String :=
  if items.contains item then items else items ++ [item]

def addDependency (c : Context) (path : String) : Context :=
  { c with dependencies := addOnce c.dependencies path }

def addDirectory (c : Context) (directory : String) : Context :=
  { c with directories := addOnce c.directories directory }

def addError (c : Context) (error : Task.Error) : Context :=
  { c with errors := c.errors ++ [error] }

/-- Records a dependency; a glob is a directory. -/
def register (c : Context) (d : Dependency) : Context :=
  if d.isGlob then c.addDirectory d.path else c.addDependency d.path

def registerAll (c : Context) (ds : List Dependency) : Context :=
  ds.foldl register c

end Context

/-- A module could not be transpiled. -/
structure Error where
  path : String
  cause : Task.Error
  deriving DecidableEq, Repr

def Error.message (e : Error) : String :=
  "failed to transpile " ++ e.path ++ ": " ++ e.cause.message

end Transpile

open Transpile (Context)

/-- The settings that all modules of a project share. -/
structure Transpiler where
  /-- The directory of installed packages. -/
  dependencyRoot : String := "/node_modules"
  /-- The settings of a module whose context has none. -/
  settings : Task.Settings := {}
  deriving Inhabited

namespace Transpiler

/-- The text occurs somewhere in the other. -/
def occursIn (part : List Char) : List Char → Bool
  | [] => part.isEmpty
  | c :: rest => part.isPrefixOf (c :: rest) || occursIn part rest

/-- The package asks for a macro package. -/
def usesMacros (package : Option DependencyLists) : Bool :=
  match package with
  | none => false
  | some lists => lists.dependencies.keys.any fun name => occursIn "macro".toList name.toList

/-- The code that is looked at: a module of an installed package is brought to CommonJS form, if it
can be. -/
def prepare (t : Transpiler) (path source : String) : String :=
  if occursIn t.dependencyRoot.toList path.toList && Scan.isModule source then
    match CommonJs.ofSource source with
    | .ok code => code
    | .error _ => source
  else source

/-- CommonJS code that needs no task. -/
def passesThrough (t : Transpiler) (c : Context) (code : String) : Bool :=
  !Scan.needsTranspile code &&
    (c.options.simpleRequire || t.dependencyRoot.toList.isPrefixOf c.path.toList)

/-- The task of a module. -/
def payload (t : Transpiler) (c : Context) (code : String) : Task.Payload :=
  { code
    settings := c.options.settings.getD t.settings
    path := c.path
    target := c.options.target.getD (Task.Target.ofPackage c.options.package)
    features := { macros := usesMacros c.options.package } }

/-- What a task's verdict means to the module that asked for it. -/
def conclude (c : Context) : Task.Verdict → Except Transpile.Error String × Context
  | .output output => (.ok output.code, c.registerAll output.dependencies)
  | .rejected message => refuse (.transform message)
  | .crashed => refuse (.workerLost ⟨c.moduleId, 0⟩)
where
  refuse (cause : Task.Error) : Except Transpile.Error String × Context :=
    (.error ⟨c.path, cause⟩, c.addError cause)

/-- **Transpiles the source of a module**: the code, and the context with all that was found out. -/
def transpile (t : Transpiler) (source : String) (c : Context) :
    Except Transpile.Error String × Context :=
  let code := t.prepare c.path source
  if t.passesThrough c code then (.ok code, c.registerAll (Scan.requires code))
  else conclude c (Task.transform (t.payload c code))

end Transpiler

end ModuleForge
