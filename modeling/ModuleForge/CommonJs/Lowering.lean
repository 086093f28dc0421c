import ModuleForge.CommonJs.Names
import ModuleForge.CommonJs.Printer
import ModuleForge.CommonJs.Reassignment
import ModuleForge.Grammar.Module

/-!
# From modules to CommonJS

One walk over the body of a program replaces each import and export by the CommonJS statements that
stand for it, in place. A statement whose module specifier is no string literal stays as it is.

- The mark of a module is put in front of the first export.
- Exports of local names wait for the end of the module, where all bindings exist.
- The helper that wraps default imports is declared once, at the very end.
- Last, assignments to a default function or class are made to change the export too.
-/

namespace ModuleForge.CommonJs

/-- What the walk knows besides the program. -/
structure Walk where
  names : Names
  /-- Whether the mark of a module is in place. -/
  marked : Bool := false
  /-- The name of the helper for default imports, once one is needed. -/
  helper : Option String := none
  /-- The names of the functions and classes that are default exports. -/
  defaults : List String := []
  /-- The exports of local names. -/
  trailing : List Statement := []

/-- The walk, the program, and the place in its body where the walk goes on. -/
structure Stage where
  walk : Walk
  program : Program
  index : Nat

namespace Stage

/-- Goes on behind the statement at the current place. -/
def pass (s : Stage) : Stage :=
  { s with index := s.index + 1 }

/-- Puts the mark of a module in front of the current place, unless it is in place already. -/
def mark (s : Stage) : Stage :=
  if s.walk.marked then s
  else
    { walk := { s.walk with marked := true }
      program := (s.program.insert s.index .moduleMarker).2
      index := s.index + 1 }

/-- Replaces the statement at the current place and goes on behind what stands for it. -/
def put (statements : List Statement) (s : Stage) : Stage :=
  { s with
    program := (s.program.replaceWith s.index statements).2
    index := s.index + statements.length }

/-- Gives out a name. -/
def withName (base : String) (k : String → Stage → Stage) (s : Stage) : Stage :=
  let (name, names) := s.walk.names.allocate base
  k name { s with walk := { s.walk with names } }

/-- The name of the helper for default imports. -/
def withHelper (k : String → Stage → Stage) (s : Stage) : Stage :=
  match s.walk.helper with
  | some name => k name s
  | none =>
    s.withName (bindingPrefix ++ "interopRequireDefault") fun name s =>
      k name { s with walk := { s.walk with helper := some name } }

end Stage

/-! ## Exports -/

/-- `exports.exported = name;` -/
def assignName (exported name : String) : Statement :=
  .exportAssign exported (.ident name)

def lowerExportAll (decl : ExportAll) (s : Stage) : Stage :=
  match decl.source, decl.asName with
  | .dynamic, _ => s.pass
  | .literal source, some name => s.mark.put [.exportAssign name.text (.require source)]
  | .literal source, none =>
    s.mark.withName (bindingBase source) fun binding s =>
      s.put [.require (some binding) source, .exportAllKeys binding]

def lowerExportNamed (decl : ExportNamed) (s : Stage) : Stage :=
  match decl.source with
  | some .dynamic => s.pass
  | some (.literal source) =>
    s.mark.withName (bindingBase source) fun binding s =>
      s.put (.require (some binding) source :: decl.specifiers.map fun spec =>
        .exportAssign spec.exported.text (.member binding spec.inner.text))
  | none =>
    let s := s.mark
    let exports := decl.specifiers.map fun spec => assignName spec.exported.text spec.inner.text
    { s with walk := { s.walk with trailing := s.walk.trailing ++ exports } }.put []

def lowerExportDecl (decl : ExportDecl) (s : Stage) : Stage :=
  s.mark.put (.declaration decl.kind (.ofSpan decl.decl) ::
    decl.names.map fun n => assignName n.name n.name)

/-- The statements for a default function or class. A function can be exported before its
declaration, a class cannot. -/
def defaultDecl (kind : DeclKind) (name : String) (text : Fragment) : List Statement :=
  match kind with
  | .class => [.declaration kind text, assignName "default" name]
  | _ => [assignName "default" name, .declaration kind text]

def lowerExportDefault (decl : ExportDefault) (s : Stage) : Stage :=
  let base := bindingPrefix ++ "default"
  match decl with
  | .decl kind (some name) decl _ _ =>
    let s := s.mark
    { s with walk := { s.walk with defaults := s.walk.defaults ++ [name.name] } }.put
      (defaultDecl kind name.name (.ofSpan decl))
  | .decl kind none decl keywordEnd _ =>
    s.mark.withName base fun name s =>
      let text := Fragment.ofSpan decl
      let named := (text.insertAt? keywordEnd (" " ++ name)).getD text
      s.put (defaultDecl kind name named)
  | .expr expr _ =>
    s.mark.withName base fun name s =>
      s.put [.varBinding name (.source (.ofSpan expr)), assignName "default" name]

/-! ## Imports -/

/-- Puts the binding of a specifier behind the current place, which holds the required module. -/
def insertSpecifier (binding : String) (spec : ImportSpecifier) (s : Stage) : Stage :=
  let insert (name : String) (init : Expr) (s : Stage) : Stage :=
    { s with program := (s.program.insert (s.index + 1) (.varBinding name init)).2 }
  match spec with
  | .default n => s.withHelper fun helper => insert n.name (.interopDefault helper binding)
  | .namespace n => insert n.name (.ident binding) s
  | .named imported n => insert n.name (.member binding imported.text) s

/-- Puts the statement at the current place. -/
def Stage.setHere (statement : Statement) (s : Stage) : Stage :=
  { s with program := (s.program.replace s.index statement).2 }

/-- The specifiers are inserted at one place from the last to the first, so that they stand in their
order. -/
def lowerImport (decl : ImportDecl) (s : Stage) : Stage :=
  match decl.source, decl.specifiers with
  | .dynamic, _ => s.pass
  | .literal source, [] => (s.setHere (.require none source)).pass
  | .literal source, specifiers =>
    s.withName (bindingBase source) fun binding s =>
      let s := s.setHere (.require (some binding) source)
      let s := specifiers.foldr (insertSpecifier binding) s
      { s with index := s.index + 1 + specifiers.length }

/-! ## The walk -/

/-- Lowers the statement at the current place. -/
def lowerStatement (statement : Statement) (s : Stage) : Stage :=
  match statement with
  | .exportAll decl => lowerExportAll decl s
  | .exportNamed decl => lowerExportNamed decl s
  | .exportDecl decl => lowerExportDecl decl s
  | .exportDefault decl => lowerExportDefault decl s
  | .importFrom decl => lowerImport decl s
  | _ => s.pass

/-- Lowers the next statements, as many as are left. -/
def lowerFrom : Nat → Stage → Stage
  | 0, s => s
  | left + 1, s =>
    match s.program.get? s.index with
    | none => s
    | some statement => lowerFrom left (lowerStatement statement s)

/-- Adds statements at the end of a program. -/
def pushAll (statements : List Statement) (p : Program) : Program :=
  statements.foldl (fun p s => (p.push s).2) p

/-- The walk over a whole program, given the names that are taken, and what waits for its end. -/
def lowerBody (names : Names) (p : Program) : Walk × Program :=
  let s := lowerFrom p.length ⟨{ names }, p, 0⟩
  let closing := s.walk.trailing ++ s.walk.helper.toList.map .interopHelper
  (s.walk, pushAll closing s.program)

/-- **The program with CommonJS statements in place of its module items.** -/
def lower (tokens : List Token) (p : Program) : Program :=
  let (walk, p) := lowerBody (.ofTokens tokens) p
  let array := tokens.toArray
  walk.defaults.foldl (fun p name => Reassignment.exportAssignments array name p) p

/-! ## Sources -/

/-- Why a source has no CommonJS form. -/
inductive Failure where
  /-- The first parse error. -/
  | parse (error : Grammar.ParseError)
  /-- A statement refers to a slice that the source does not have. -/
  | slice
  deriving DecidableEq, Repr

def Failure.message : Failure → String
  | .parse e => e.message ++ " at " ++ e.place
  | .slice => "slice out of range"

/-- The CommonJS form of a source. -/
def ofSource (source : String) : Except Failure String :=
  let tokens := Token.scan source
  match Grammar.parseTokens tokens with
  | .error (e :: _) => .error (.parse e)
  | .error [] => .error .slice
  | .ok program =>
    match (lower tokens program).generate? source.toList with
    | some text => .ok (String.ofList text)
    | none => .error .slice

end ModuleForge.CommonJs
