import ModuleForge.Project.Config
import ModuleForge.Project.Graph
import ModuleForge.Project.Resolver
import ModuleForge.Transpile

/-!
# Building a project

From the files of a project to its module graph: the packages that it needs are fetched and laid over
its files, its first module is found, and every module that can be reached from it is transpiled.
-/

namespace ModuleForge

namespace Build

/-- Why there is no graph. -/
inductive Error where
  /-- The description of the project cannot be read. -/
  | description
  | fetch (error : Fetch.Error)
  | entryNotFound (requested : String)
  deriving DecidableEq, Repr, Inhabited

/-- A graph, with an order of its modules and its circles. -/
structure Report where
  graph : Graph
  order : List String
  cycles : List (List String)
  deriving Inhabited

/-- The files of the build in the order of writing, each with its path below the output directory. -/
def Report.outputs (r : Report) : List (String × String) :=
  r.order.filterMap fun path =>
    (r.graph.find? path).map fun node =>
      (String.ofList (path.toList.dropWhile (· == '/')), node.code)

/-! ## The first module -/

/-- Where a project starts if nobody says it. -/
def defaultEntries : List String := ["/src/index.js", "/index.js", "/src/main.js"]

/-- Drops `./` from the front as often as it stands there. -/
def dropDotSlashes : List Char → List Char
  | '.' :: '/' :: rest => dropDotSlashes rest
  | cs => cs

/-- An entry as an absolute path. -/
def entryPath (entry : String) : String :=
  String.ofList ('/' :: (dropDotSlashes entry.toList).dropWhile (· == '/'))

/-- The first module: as requested, else as described, else where modules usually start. -/
def findEntry (t : FileTree) (r : Resolver) (d : Description) (requested : Option String) :
    Except Error String :=
  match requested.or d.entryPoint? with
  | some entry =>
    match r.resolve t (entryPath entry) "/package.json" with
    | .ok (.localFile path) => .ok path
    | .ok (.package path) => .ok path
    | _ => .error (.entryNotFound entry)
  | none =>
    match defaultEntries.find? t.isFile with
    | some path => .ok path
    | none => .error (.entryNotFound (String.intercalate ", " defaultEntries))

/-! ## All modules -/

/-- What all modules of a build share. -/
structure Setup where
  files : FileTree
  resolver : Resolver
  transpiler : Transpiler
  options : Transpile.Options

/-- A file that can be loaded. -/
def isModuleFile (path : String) : Bool :=
  [".js", ".mjs", ".cjs", ".json"].any (Path.endsWith path)

/-- Follows a specifier of a module: a file is a dependency, and one that means nothing an error. -/
def follow (s : Setup) (node : Graph.Node) (specifier : String) : Graph.Node :=
  match s.resolver.resolve s.files specifier node.path with
  | .ok (.localFile path) => { node with dependencies := node.dependencies ++ [path] }
  | .ok (.package path) => { node with dependencies := node.dependencies ++ [path] }
  | .ok (.builtin _) => node
  | .error e => { node with errors := node.errors ++ [e.message] }

/-- The node of a module with its source, and the files it leads to. A module that fails keeps its
source; data is wrapped and leads nowhere. -/
def visit (s : Setup) (path source : String) : Graph.Node × List String :=
  if Path.endsWith path ".json" then
    let data := String.ofList (Text.trim source.toList)
    ({ path, code := "module.exports = " ++ data ++ ";" }, [])
  else
    let (result, context) := s.transpiler.transpile source (.ofPath path s.options)
    let node : Graph.Node := match result with
      | .ok code => { path, code }
      | .error e => { path, code := source, errors := [e.message] }
    let node := context.dependencies.foldl (follow s) node
    let directories := context.directories.map (Path.join (Path.dirname path))
    let files := directories.flatMap fun d => (s.files.filesIn d).filter isModuleFile
    ({ node with directories }, node.dependencies ++ files)

/-- Appends an item unless it is known or there already. -/
def addUnknown (known new : List String) (item : String) : List String :=
  if known.contains item || new.contains item then new else new ++ [item]

/-- The items that are not known yet, each once. -/
def unknown (known items : List String) : List String := items.foldl (addUnknown known) []

/-- The visits to the modules of a queue, and to all that are found on the way, in the order in which
they were found. -/
def visits (s : Setup) : (fuel : Nat) → (queue seen : List String) → List Graph.Node
  | 0, _, _ => []
  | _ + 1, [], _ => []
  | fuel + 1, path :: queue, seen =>
    match s.files.read? path with
    | none => visits s fuel queue seen
    | some source =>
      let (node, found) := visit s path source
      let new := unknown seen found
      node :: visits s fuel (queue ++ new) (seen ++ new)

/-- All visits of a build. Every visit is to another file, so there are no more visits than files. -/
def visitsFrom (s : Setup) (entry : String) : List Graph.Node :=
  visits s (s.files.size + 1) [entry] [entry]

/-- **The graph of all modules that can be reached from the first one.** -/
def graphFrom (s : Setup) (entry : String) : Graph :=
  (visitsFrom s entry).foldl Graph.add { entry := some entry }

/-! ## Projects -/

/-- What all modules of a project share. -/
def setup (config : Config) (d : Description) (files : FileTree) : Setup :=
  { files
    resolver := .ofRoot config.transpile.dependencyRoot
    transpiler :=
      { dependencyRoot := config.transpile.dependencyRoot, settings := config.transpile.settings }
    options :=
      { settings := some config.transpile.settings, package := some d.dependencyLists } }

/-- The description of a project; without a file for it nothing is said. -/
def describe (t : FileTree) : Option Description :=
  match t.read? "/package.json" with
  | some text => Description.parse? text
  | none => some {}

/-- The report of a project whose packages are among its files. -/
def report (config : Config) (d : Description) (files : FileTree) (requested : Option String) :
    Except Error Report := do
  let s := setup config d files
  let entry ← findEntry files s.resolver d requested
  let graph := graphFrom s entry
  .ok { graph, order := graph.order, cycles := graph.cycles }

/-- **Builds a project**; `requested` is its first module, if it is not the one described. -/
def run (config : Config) (client : Client) (files : FileTree) (requested : Option String) :
    Fetch (Except Error Report) := do
  match describe files with
  | none => pure (.error .description)
  | some d =>
    match ← client.fetch d.dependencies with
    | none => pure (report config d files requested)
    | some download => pure (report config d (files.overlay download.manifest) requested)

end Build

end ModuleForge
