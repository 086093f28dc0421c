import ModuleForge.Dictionary

/-!
# The module graph

The modules of a project after they were transpiled, and which of them load which. CommonJS modules may
load each other in a circle: circles are found and reported, not refused.

- `Graph.cycles`: the circles that a walk through the graph comes across.
- `Graph.order`: all modules, what a module loads before the module itself as far as that is possible.
-/

namespace ModuleForge

/-- A module of the graph. -/
structure Graph.Node where
  path : String
  code : String := ""
  /-- The modules that it loads. -/
  dependencies : List String := []
  /-- The directories that it may load any file from. -/
  directories : List String := []
  errors : List String := []
  deriving DecidableEq, Repr, Inhabited

/-- Modules by path. -/
structure Graph where
  modules : Dictionary Graph.Node := {}
  entry : Option String := none
  deriving Inhabited

namespace Graph

/-- Puts a module at its path. -/
def add (g : Graph) (node : Node) : Graph :=
  { g with modules := g.modules.insert node.path node }

def contains (g : Graph) (path : String) : Bool := g.modules.contains path

def find? (g : Graph) (path : String) : Option Node := g.modules.find? path

def paths (g : Graph) : List String := g.modules.keys

/-- The modules with an error. -/
def failed (g : Graph) : List Node := g.modules.values.filter fun n => !n.errors.isEmpty

/-- What a path loads; a path without module loads nothing. -/
def dependenciesOf (g : Graph) (path : String) : List String :=
  ((g.find? path).map (·.dependencies)).getD []

/-! ## Circles -/

/-- The paths that a walk has been to, and the circles that it has closed. -/
structure Walk where
  visited : List String := []
  cycles : List (List String) := []
  deriving Inhabited

/-- The circle that a step to a path closes, given the way to here: from the path back to itself. -/
def closedCycle? (way : List String) (path : String) : Option (List String) :=
  if way.contains path then some (way.dropWhile (· != path) ++ [path]) else none

/-- Walks on from a path; `way` leads to it. The depth of the walk is bounded by `fuel`. -/
def walkFrom (g : Graph) : (fuel : Nat) → (way : List String) → (path : String) → Walk → Walk
  | 0, _, _, w => w
  | fuel + 1, way, path, w =>
    let way := way ++ [path]
    let next (w : Walk) (dependency : String) : Walk :=
      match closedCycle? way dependency with
      | some cycle => { w with cycles := w.cycles ++ [cycle] }
      | none => if w.visited.contains dependency then w else walkFrom g fuel way dependency w
    (g.dependenciesOf path).foldl next { w with visited := path :: w.visited }

/-- No way through the graph is longer than this: it has only modules on it, and one more path. -/
def maxWay (g : Graph) : Nat := g.modules.size + 2

/-- **The circles that a depth-first walk closes**, each from a module back to itself. -/
def cycles (g : Graph) : List (List String) :=
  let start (w : Walk) (path : String) : Walk :=
    if w.visited.contains path then w else g.walkFrom g.maxWay [] path w
  (g.paths.foldl start {}).cycles

/-! ## Order -/

/-- The modules among what a module loads, with repetitions. -/
def edgesOf (g : Graph) (node : Node) : List String := node.dependencies.filter g.contains

/-- The modules that load a module, in the order of their paths, each as often as it does so. -/
def dependents (g : Graph) (path : String) : List String :=
  g.modules.entries.flatMap fun entry =>
    List.replicate ((g.edgesOf entry.2).count path) entry.1

/-- An order while it is made: modules that are ready, modules that have their place, and how many
dependencies of each module have none. -/
structure Placement where
  ready : List String
  placed : List String := []
  missing : Dictionary Nat

namespace Placement

/-- One dependency of a module got its place; with the last one it is ready. -/
def release (p : Placement) (path : String) : Placement :=
  match p.missing.find? path with
  | none => p
  | some count =>
    let missing := p.missing.insert path (count - 1)
    if count - 1 = 0 then { p with missing, ready := p.ready ++ [path] } else { p with missing }

end Placement

/-- Gives their place to modules that are ready, first come first served. -/
def place (g : Graph) : Nat → Placement → Placement
  | 0, p => p
  | fuel + 1, p =>
    match p.ready with
    | [] => p
    | path :: rest =>
      let p := { p with ready := rest, placed := p.placed ++ [path] }
      place g fuel ((g.dependents path).foldl Placement.release p)

/-- The start: modules that load no module are ready. -/
def initialPlacement (g : Graph) : Placement :=
  let missing := g.modules.map fun node => (g.edgesOf node).length
  { ready := (missing.entries.filter (·.2 == 0)).map (·.1), missing }

/-- **All modules, dependencies first.** Those that a circle keeps from being ready follow the rest in
the order of their paths. -/
def order (g : Graph) : List String :=
  let placed := (g.place g.modules.size g.initialPlacement).placed
  placed ++ g.paths.filter fun path => !placed.contains path

end Graph

end ModuleForge
