import ModuleForge.Source.Fragment
import ModuleForge.Text.Word

/-!
# Statements

The top-level statements of a module. Parsed statements describe module items found in a source;
synthesized ones hold what is needed to print the CommonJS statements that stand for them.
-/

namespace ModuleForge

/-- What a module item imports from: a string literal, or some other text that is left alone. -/
inductive ModuleSource where
  | literal (text : String)
  | dynamic
  deriving DecidableEq, Repr, Inhabited

def ModuleSource.literal? : ModuleSource → Option String
  | literal text => some text
  | dynamic => none

/-- A name on the surface of a module, written as an identifier or as a string. -/
inductive ExportName where
  | ident (name : String)
  | str (name : String)
  deriving DecidableEq, Repr, Inhabited

def ExportName.text : ExportName → String
  | ident name => name
  | str name => name

/-- Whether a name can follow a dot: a letter, `_` or `$`, then those and numbers. -/
def isIdentifierName (name : String) : Bool :=
  match name.toList with
  | [] => false
  | c :: rest =>
    (Text.isLetter c || c == '_' || c == '$') &&
      rest.all fun c => Text.isAlnum c || c == '_' || c == '$'

inductive ImportSpecifier where
  /-- `import name from "m"` -/
  | default (binding : Name)
  /-- `import * as name from "m"` -/
  | namespace (binding : Name)
  /-- `import { imported as name } from "m"` -/
  | named (imported : ExportName) (binding : Name)
  deriving DecidableEq, Repr, Inhabited

/-- `import ... from "m"` -/
structure ImportDecl where
  specifiers : List ImportSpecifier
  source : ModuleSource
  span : Span
  deriving DecidableEq, Repr, Inhabited

/-- `export * [as name] from "m"` -/
structure ExportAll where
  source : ModuleSource
  asName : Option ExportName
  span : Span
  deriving DecidableEq, Repr, Inhabited

structure ExportSpecifier where
  inner : ExportName
  exported : ExportName
  deriving DecidableEq, Repr, Inhabited

/-- `export { a, b as c } [from "m"]` -/
structure ExportNamed where
  specifiers : List ExportSpecifier
  source : Option ModuleSource
  span : Span
  deriving DecidableEq, Repr, Inhabited

/-- The shapes of a declaration. -/
inductive DeclKind where
  | var
  | function
  | «class»
  deriving DecidableEq, Repr, Inhabited

def DeclKind.name : DeclKind → String
  | var => "Var"
  | function => "Function"
  | «class» => "Class"

/-- `export` before a declaration: `decl` is the declaration alone, `names` what it binds in order. -/
structure ExportDecl where
  kind : DeclKind
  decl : Span
  names : List Name
  span : Span
  deriving DecidableEq, Repr, Inhabited

inductive ExportDefault where
  /-- `export default` before a function or class: `keywordEnd` is the offset just behind
  `function`, `function*` or `class`. -/
  | decl (kind : DeclKind) (name : Option Name) (decl : Span) (keywordEnd : Nat) (span : Span)
  /-- `export default` before an expression. -/
  | expr (expr : Span) (span : Span)
  deriving DecidableEq, Repr, Inhabited

/-- Expressions of synthesized statements. -/
inductive Expr where
  | ident (name : String)
  /-- `object.property`, or `object["property"]` -/
  | member (object property : String)
  /-- `require("source")` -/
  | require (source : String)
  /-- `helper(binding).default` -/
  | interopDefault (helper binding : String)
  /-- Text taken from the source. -/
  | source (text : Fragment)
  deriving DecidableEq, Repr, Inhabited

/-- A top-level statement. -/
inductive Statement where
  /-- Source text between module items. -/
  | verbatim (text : Fragment)
  | importFrom (decl : ImportDecl)
  | exportAll (decl : ExportAll)
  | exportNamed (decl : ExportNamed)
  | exportDecl (decl : ExportDecl)
  | exportDefault (decl : ExportDefault)
  /-- `var binding = require("source");`, or the call alone. -/
  | require (binding : Option String) (source : String)
  /-- `var name = init;` -/
  | varBinding (name : String) (init : Expr)
  /-- `exports.exported = value;` -/
  | exportAssign (exported : String) (value : Expr)
  /-- Copies every key of `binding` except `default` and `__esModule` to the exports. -/
  | exportAllKeys (binding : String)
  /-- A declaration of the source without its `export`. -/
  | declaration (kind : DeclKind) (text : Fragment)
  /-- Marks the exports as those of a module. -/
  | moduleMarker
  /-- Declares the function that wraps a required value as `{ default }`. -/
  | interopHelper (name : String)
  deriving DecidableEq, Repr, Inhabited

namespace Statement

/-- A statement that no source contains. -/
def isSynthesized : Statement → Bool
  | require .. | varBinding .. | exportAssign .. | exportAllKeys .. | declaration .. | moduleMarker
  | interopHelper .. => true
  | _ => false

/-- A parsed export. -/
def isExport : Statement → Bool
  | exportAll .. | exportNamed .. | exportDecl .. | exportDefault .. => true
  | _ => false

/-- The place of a parsed module item. -/
def sourceSpan? : Statement → Option Span
  | importFrom decl => some decl.span
  | exportAll decl => some decl.span
  | exportNamed decl => some decl.span
  | exportDecl decl => some decl.span
  | exportDefault (.decl _ _ _ _ span) => some span
  | exportDefault (.expr _ span) => some span
  | _ => none

/-- The source text that the statement carries as a fragment. -/
def fragment? : Statement → Option Fragment
  | verbatim text => some text
  | declaration _ text => some text
  | varBinding _ (.source text) => some text
  | exportAssign _ (.source text) => some text
  | _ => none

/-- The statement with another fragment in place of the one it carries. -/
def withFragment (f : Fragment) : Statement → Statement
  | verbatim _ => verbatim f
  | declaration kind _ => declaration kind f
  | varBinding name (.source _) => varBinding name (.source f)
  | exportAssign exported (.source _) => exportAssign exported (.source f)
  | s => s

/-- Inserts text in front of the source byte at `offset`, if the statement carries that byte. -/
def insertText? (offset : Nat) (t : String) (s : Statement) : Option Statement := do
  let f ← s.fragment?
  let f' ← f.insertAt? offset t
  pure (s.withFragment f')

end Statement

end ModuleForge
