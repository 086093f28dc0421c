import ModuleForge.Command.Arguments
import ModuleForge.Command.Host
import ModuleForge.Command.Outline
import ModuleForge.Grammar.Module
import ModuleForge.Json.Printer
import ModuleForge.Project.Build

/-!
# Commands

What the program prints and writes for an invocation, on any host and any network. An error is printed
with all its causes, the outermost first.
-/

namespace ModuleForge

namespace Command

/-- A fault in a source, to be shown with its place. -/
structure Diagnostic where
  code : String
  title : String
  message : String
  span : Span
  file : String
  deriving DecidableEq, Repr, Inhabited

/-- One line for a fault. -/
def Diagnostic.text (d : Diagnostic) : String :=
  "[" ++ d.code ++ "] " ++ d.title ++ ": " ++ d.message ++ " (" ++ d.file ++ ", " ++
    toString d.span.start ++ ".." ++ toString d.span.stop ++ ")\n"

/-- What a command leaves behind: its exit code, what it prints, and the faults that are shown behind
that. -/
structure Outcome where
  code : Nat := 0
  stdout : String := ""
  stderr : String := ""
  diagnostics : List Diagnostic := []
  deriving DecidableEq, Repr, Inhabited

/-- The outcome of an error with its causes. -/
def Outcome.failure (causes : List String) : Outcome :=
  { code := 1, stderr := "Error: " ++ String.intercalate ": " causes ++ "\n" }

/-- What is said about a text that cannot be read. -/
def unreadable : String := "unexpected content"

variable {m : Type → Type} [Monad m]

/-! ## Configuration -/

/-- The causes of a configuration error. -/
def configCauses (e : Config.Error) : List String :=
  match e with
  | .io message => [e.text unreadable, message]
  | _ => [e.text unreadable]

/-- A path inside a directory. -/
def inDirectory (directory name : String) : String :=
  if directory.isEmpty || Path.endsWith directory "/" then directory ++ name
  else directory ++ "/" ++ name

/-- The configuration in a file. -/
def loadConfigFile (host : Host m) (path : String) : m (Except Config.Error Config) := do
  match ← host.readText path with
  | .error e => pure (.error (.io e.message))
  | .ok text => pure (Config.ofText text)

/-- The configuration of a project; without a file for it, the defaults. -/
def loadConfig (host : Host m) (directory : String) : m (Except Config.Error Config) := do
  let path := inDirectory directory Config.fileName
  if ← host.isPresent path then loadConfigFile host path else pure (.ok {})

/-- The configuration of an invocation: from the file that it names, or from the project's own. The
number of workers can be given on the command line. -/
def configFor (host : Host m) (i : Invocation) (directory : String) :
    m (Except (List String) Config) := do
  let loaded ← match i.config with
    | some path => do
      pure ((← loadConfigFile host path).mapError fun e => ("loading " ++ path) :: configCauses e)
    | none => do pure ((← loadConfig host directory).mapError configCauses)
  match loaded, i.workers with
  | .ok config, some count =>
    let config := { config with workers := { config.workers with count } }
    match config.fault? with
    | some message => pure (.error (configCauses (.validation message)))
    | none => pure (.ok config)
  | loaded, _ => pure loaded

/-! ## One file -/

/-- Does something with the text of a source file. -/
def withSource (host : Host m) (path : String) (use : String → Outcome) : m Outcome := do
  match ← host.readText path with
  | .ok text => pure (use text)
  | .error e => pure (.failure ["reading " ++ path, e.message])

/-- A number in a column of four characters. -/
def column (n : Nat) : String :=
  let digits := toString n
  String.ofList (List.replicate (4 - digits.length) ' ') ++ digits

/-- The line of a token. -/
def tokenLine (positions : Bool) (index : Nat) (t : Token) : String :=
  let place :=
    if positions then " | " ++ toString t.span.start ++ ".." ++ toString t.span.stop else ""
  column index ++ " | " ++ t.kind.name ++ " | " ++ Text.shown t.value ++ place ++ "\n"

/-- The lines of tokens up to the end of the source. -/
def tokenLines (positions : Bool) : Nat → List Token → String
  | _, [] => ""
  | index, t :: rest =>
    if t.kind == .eof then "\n" ++ column index ++ " | " ++ t.kind.name ++ "\n"
    else tokenLine positions index t ++ tokenLines positions (index + 1) rest

/-- A line across the page. -/
def ruler : String := String.ofList (List.replicate 80 '=') ++ "\n"

/-- Shows the tokens of a source. -/
def lexOutcome (path : String) (positions : Bool) (source : String) : Outcome :=
  let tokens := Token.scan source
  let faults := tokens.filter (·.kind == .error)
  let listing := "Tokens for " ++ path ++ ":\n\n" ++ ruler ++ tokenLines positions 0 tokens ++ ruler ++
    "\nTotal tokens: " ++ toString tokens.length ++ "\n"
  if faults.isEmpty then { stdout := listing }
  else
    { code := 1
      stdout := listing ++ "\nLexer errors found: " ++ toString faults.length ++ "\n"
      diagnostics := faults.map fun t => ⟨"E0001", "Lexical error", t.value, t.span, path⟩ }

/-- The fault of a parse error. -/
def parseDiagnostic (path : String) (e : Grammar.ParseError) : Diagnostic :=
  ⟨"E1000", "Parse error", e.message, e.span, path⟩

/-- Shows the statements of a source. -/
def parseOutcome (path source : String) : Outcome :=
  match Grammar.parse source with
  | .ok program => { stdout := program.outline.render ++ "\n" }
  | .error errors => { code := 1, diagnostics := errors.map (parseDiagnostic path) }

/-- Shows a source in CommonJS form. -/
def rewriteOutcome (path source : String) : Outcome :=
  match CommonJs.ofSource source with
  | .ok code => { stdout := code }
  | .error (.parse e) => { code := 1, diagnostics := [parseDiagnostic path e] }
  | .error .slice => .failure [CommonJs.Failure.slice.message]

/-- The last segment of a path; a path that ends in none has no name. -/
def fileName? (path : String) : Option String :=
  let parts := (Disk.partsOf path).filter fun part => part ≠ "" && part ≠ "."
  parts.getLast?.filter (· ≠ "..")

/-- The path of a module that stands for itself, or for a file of an installed package. -/
def modulePath (config : Config) (input : String) (dependency : Bool) : String :=
  let name := (fileName? input).getD "index.js"
  if dependency then
    String.ofList (Text.dropEndWhile '/' config.transpile.dependencyRoot.toList) ++ "/" ++ name
  else "/" ++ name

/-- The transpiler of a configuration. -/
def transpilerOf (config : Config) : Transpiler :=
  { dependencyRoot := config.transpile.dependencyRoot, settings := config.transpile.settings }

/-- Transpiles a source, and shows what it loads. -/
def transpileOutcome (config : Config) (path : String) (simpleRequire : Bool) (source : String) :
    Outcome :=
  let context := Transpile.Context.ofPath path { simpleRequire }
  match (transpilerOf config).transpile source context with
  | (.ok code, context) =>
    let edge (target : String) : String := path ++ " -> " ++ target ++ "\n"
    { stdout := code ++ "\n"
      stderr := String.join (context.dependencies.map edge) ++
        String.join (context.directories.map fun d => edge (d ++ "/*")) }
  | (.error e, _) => .failure [e.message]

/-! ## Packages and projects -/

/-- The causes of a failed fetch. -/
def fetchCauses (e : Fetch.Error) : List String := [e.message unreadable, e.text unreadable]

/-- A client of the services that a configuration names. -/
def clientOf (config : Config) (net : Network) : Client :=
  { services := config.packager.services, policy := config.packager.policy, network := net }

/-- The directory that a file is in; the working directory is empty. -/
def directoryOf (path : String) : String :=
  let parts := Disk.partsOf path
  let isAbsolute := path.toList.head? = some '/'
  let named := parts.filter fun part => part ≠ "" && part ≠ "."
  let directory := String.intercalate "/" named.dropLast
  if isAbsolute then "/" ++ directory else directory

/-- What is shown of a manifest. -/
def summary (manifest : Manifest) : String :=
  String.join (manifest.packages.map fun p => p.name ++ "@" ++ p.version ++ "\n") ++
    "\n" ++ toString manifest.fileCount ++ " files\n"

/-- Shows a manifest, or writes it to a file. -/
def deliver (host : Host m) (manifest : Manifest) : Option String → m Outcome
  | none => pure { stdout := summary manifest }
  | some out => do
    match ← host.writeFile out manifest.encode.pretty.toUTF8 with
    | .ok () => pure { stdout := "Manifest written to: " ++ out ++ "\n" }
    | .error e => pure (.failure ["writing " ++ out, e.message])

/-- Fetches the packages that a description asks for. -/
def fetchOutcome (host : Host m) (net : Network) (config : Config) (path : String)
    (out : Option String) : m Outcome := do
  match ← host.readText path with
  | .error e => pure (.failure ["failed to read " ++ path ++ ": " ++ e.message, e.message])
  | .ok text =>
    match Description.parse? text with
    | none => pure (.failure ["invalid package.json: " ++ unreadable])
    | some d =>
      match ((clientOf config net).fetch d.dependencies).run {} with
      | .error e _ => pure (.failure (fetchCauses e))
      | .ok none _ => pure { stdout := "No dependencies to fetch\n" }
      | .ok (some download) _ => deliver host download.manifest out

/-- Writes files below a directory, one after the other; answers how many there are. -/
def writeAll (host : Host m) (directory : String) :
    List (String × String) → Nat → m (Except Host.Error Nat)
  | [], written => pure (.ok written)
  | (path, code) :: rest, written => do
    let target := inDirectory directory path
    match ← host.makeDirectory (directoryOf target) with
    | .error e => pure (.error e)
    | .ok () =>
      match ← host.writeFile target code.toUTF8 with
      | .error e => pure (.error e)
      | .ok () => writeAll host directory rest (written + 1)

/-- The causes of a failed build. -/
def buildCauses : Build.Error → List String
  | .description => ["invalid package.json: " ++ unreadable]
  | .fetch e => fetchCauses e
  | .entryNotFound requested => ["entry module not found: " ++ requested]

/-- Writes a report, and shows the errors of its modules. -/
def publish (host : Host m) (report : Build.Report) (out : String) : m Outcome := do
  match ← writeAll host out report.outputs 0 with
  | .error e => pure (.failure [e.message])
  | .ok written =>
    let failed := report.graph.failed
    let lines (node : Graph.Node) : List String :=
      node.errors.map fun e => node.path ++ ": " ++ e ++ "\n"
    pure { code := if failed.isEmpty then 0 else 1
           stdout := toString written ++ " modules written to: " ++ out ++ "\n"
           stderr := String.join (failed.flatMap lines) }

/-- Builds a project and writes it. -/
def buildOutcome (host : Host m) (net : Network) (config : Config) (project : String)
    (out entry : Option String) : m Outcome := do
  let context := "building " ++ project
  match ← host.readDirectory project with
  | .error e => pure (.failure [context, "failed to read project: " ++ e.message, e.message])
  | .ok files =>
    match (Build.run config (clientOf config net) (.ofDirectory files) entry).run {} with
    | .error e _ => pure (.failure (context :: buildCauses (.fetch e)))
    | .ok (.error e) _ => pure (.failure (context :: buildCauses e))
    | .ok (.ok report) _ => publish host report (out.getD (inDirectory project "dist"))

/-! ## Invocations -/

/-- Does something with the configuration of an invocation. -/
def withConfig (host : Host m) (i : Invocation) (directory : String) (use : Config → m Outcome) :
    m Outcome := do
  match ← configFor host i directory with
  | .error causes => pure (.failure causes)
  | .ok config => use config

/-- **What an invocation comes to.** -/
def run (host : Host m) (net : Network) (i : Invocation) : m Outcome :=
  match i.command with
  | .lex input positions => withSource host input (lexOutcome input positions)
  | .parse input => withSource host input (parseOutcome input)
  | .rewrite input => withSource host input (rewriteOutcome input)
  | .transpile input dependency simpleRequire =>
    withConfig host i "." fun config =>
      withSource host input
        (transpileOutcome config (modulePath config input dependency) simpleRequire)
  | .fetch description out =>
    withConfig host i (directoryOf description) fun config =>
      fetchOutcome host net config description out
  | .build project out entry =>
    withConfig host i project fun config => buildOutcome host net config project out entry

/-- The version of the program. -/
def version : String := "kiln 0.1.0\n"

/-- How the program is used. -/
def usage : String :=
  "Usage: kiln [--config FILE] [-j N] [-v] COMMAND\n\n" ++
    "Commands:\n" ++
    "  lex FILE [--positions]\n" ++
    "  parse FILE\n" ++
    "  rewrite FILE\n" ++
    "  transpile FILE [--dependency] [--simple-require]\n" ++
    "  fetch FILE [--out FILE]\n" ++
    "  build DIRECTORY [--out DIRECTORY] [--entry PATH]\n\n" ++
    "build reads the paths of the files in DIRECTORY from standard input, one a line.\n"

/-- **What the program does with its arguments.** -/
def runArguments (host : Host m) (net : Network) (args : List String) : m Outcome :=
  match Invocation.parse args with
  | .error .usage => pure { code := 2, stderr := usage }
  | .error .help => pure { stdout := usage }
  | .error .version => pure { stdout := version }
  | .ok i => run host net i

end Command

end ModuleForge
