import ModuleForge.Dependency
import ModuleForge.Dictionary

/-!
# Tasks

A task turns the code of one module into code that a module loader can run. This module holds what is
sent to a worker, what comes back, and how a task can fail.
-/

namespace ModuleForge

namespace Task

/-- Numbers of tasks have 64 bits. -/
def sequenceLimit : Nat := Nat.pow 2 64

/-- A submitted task: the module it is for, and its number in the order of submission. -/
structure Id where
  module : String
  sequence : Nat
  deriving DecidableEq, Repr, Inhabited

/-- The text of a task's identity. -/
def Id.text (id : Id) : String := id.module ++ "#" ++ toString id.sequence

/-- The generation of module loaders that the code is for. -/
inductive Target where
  | legacy
  | modern
  deriving DecidableEq, Repr, Inhabited

def Target.name : Target → String
  | .legacy => "legacy"
  | .modern => "modern"

/-- Settings of the transformation. -/
structure Settings where
  /-- Code for the modern generation starts with a strict mode directive. -/
  strictMode : Bool := true
  /-- Free settings, handed through. -/
  extra : Dictionary String := {}
  deriving DecidableEq, Inhabited

/-- What is known about the project around the module. -/
structure Features where
  /-- One of the packages it needs is a macro package. -/
  macros : Bool := false
  deriving DecidableEq, Repr, Inhabited

/-- The work of a task. -/
structure Payload where
  code : String
  settings : Settings := {}
  path : String
  target : Target := .legacy
  features : Features := {}
  deriving DecidableEq, Inhabited

/-- What a task yields: the code, and the modules that it loads. -/
structure Output where
  code : String
  dependencies : List Dependency
  deriving DecidableEq, Repr, Inhabited

/-- How a job ends on a payload. -/
inductive Verdict where
  | output (output : Output)
  /-- The job refuses the payload. -/
  | rejected (error : String)
  /-- The job takes its worker down. -/
  | crashed
  deriving DecidableEq, Repr, Inhabited

/-- What a worker answers. -/
inductive Outcome where
  | success (output : Output)
  | failure (error : String)
  deriving DecidableEq, Repr, Inhabited

/-- A worker's answer, with the task that it is for. -/
structure Response where
  id : Id
  outcome : Outcome
  deriving DecidableEq, Repr, Inhabited

/-- Why a task did not yield an output. -/
inductive Error where
  /-- The job refused the input. -/
  | transform (message : String)
  /-- The worker died on the task. -/
  | workerLost (id : Id)
  /-- Every worker has died. -/
  | noWorkers
  /-- An answer is not for the question. -/
  | protocol (message : String)
  deriving DecidableEq, Repr, Inhabited

def Error.message : Error → String
  | .transform m => "transform failed: " ++ m
  | .workerLost id => "worker running task " ++ id.text ++ " was lost"
  | .noWorkers => "no workers available"
  | .protocol m => "worker protocol error: " ++ m

/-- How far a task has come. -/
inductive Status where
  | queued
  | running
  | done
  | failed
  deriving DecidableEq, Repr, Inhabited

end Task

/-- The packages that a project asks for, with the range of versions of each. -/
structure DependencyLists where
  dependencies : Dictionary String := {}
  /-- Packages that are needed only to develop the project. -/
  devDependencies : Dictionary String := {}
  deriving DecidableEq, Inhabited

/-- The names of the packages, those for development last. -/
def DependencyLists.names (lists : DependencyLists) : List String :=
  lists.dependencies.keys ++ lists.devDependencies.keys

/-- The target of a project: modern if it needs the compiler `@babel/core` or one of its presets. -/
def Task.Target.ofPackage (lists : Option DependencyLists) : Task.Target :=
  let isModern (name : String) : Bool :=
    name == "@babel/core" || "@babel/preset-".toList.isPrefixOf name.toList
  if (lists.map (·.names.any isModern)).getD false then .modern else .legacy

end ModuleForge
