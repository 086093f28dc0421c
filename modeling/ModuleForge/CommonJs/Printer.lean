import ModuleForge.Program
import ModuleForge.Text.Quoted

/-!
# Printing a program

Verbatim text and module items that were left alone are copied from the source; each synthesized
statement starts on a line of its own.

- `Program.generate?`: the text of a program, `none` if a slice does not exist in the source.
-/

namespace ModuleForge

namespace CommonJs

/-- The string literal of a text. -/
def literal (text : String) : List Char :=
  Text.quote text.toList

/-- `object.property`, or `object["property"]` if the property is no identifier. -/
def member (object property : String) : List Char :=
  if isIdentifierName property then object.toList ++ '.' :: property.toList
  else object.toList ++ '[' :: literal property ++ [']']

/-- The call that loads a module. -/
def requireCall (source : String) : List Char :=
  "require(".toList ++ literal source ++ [')']

/-- The start of a variable declaration. -/
def varEquals (name : String) : List Char :=
  "var ".toList ++ name.toList ++ " = ".toList

/-- The statement that copies the keys of a required module to the exports. -/
def copyKeys (binding : String) : List Char :=
  "Object.keys(".toList ++ binding.toList ++
    ").forEach(function (key) \x7b if (key === \"default\" || key === \"__esModule\") return; ".toList ++
    "exports[key] = ".toList ++ binding.toList ++ "[key]; \x7d);".toList

/-- The statement that marks the exports as those of a module. -/
def marker : List Char :=
  "Object.defineProperty(exports, \"__esModule\", \x7b value: true \x7d);".toList

/-- The function that wraps a required value unless it has the mark. -/
def helper (name : String) : List Char :=
  "function ".toList ++ name.toList ++
    "(obj) \x7b return obj && obj.__esModule ? obj : \x7b default: obj \x7d; \x7d".toList

end CommonJs

open CommonJs

/-- The text of an expression. -/
def Expr.print? (src : List Char) : Expr → Option (List Char)
  | ident name => some name.toList
  | .member object property => some (CommonJs.member object property)
  | require specifier => some (requireCall specifier)
  | interopDefault helper binding =>
    some (helper.toList ++ '(' :: binding.toList ++ ").default".toList)
  | source text => text.render? src

/-- The text of a statement, without the line break that may stand before it. -/
def Statement.print? (src : List Char) : Statement → Option (List Char)
  | verbatim text => text.render? src
  | require none source => some (requireCall source ++ [';'])
  | require (some binding) source => some (varEquals binding ++ requireCall source ++ [';'])
  | varBinding name init => do
    let value ← init.print? src
    pure (varEquals name ++ value ++ [';'])
  | exportAssign exported value => do
    let value ← value.print? src
    pure (CommonJs.member "exports" exported ++ " = ".toList ++ value ++ [';'])
  | exportAllKeys binding => some (copyKeys binding)
  | declaration .var text => do
    let decl ← text.render? src
    let last ← text.lastSignificant? src
    pure (if last == some ';' then decl else decl ++ [';'])
  | declaration _ text => text.render? src
  | moduleMarker => some marker
  | interopHelper name => some (helper name)
  | s => (s.sourceSpan?.map (·.text? src)).getD (some [])

/-- The text of statements behind a text that ends with `last`. -/
def printFrom? (src : List Char) (last : Option Char) : List Statement → Option (List Char)
  | [] => some []
  | s :: rest => do
    let text ← s.print? src
    let text := if s.isSynthesized && last.any (· != '\n') then '\n' :: text else text
    let tail ← printFrom? src (text.getLast?.or last) rest
    pure (text ++ tail)

/-- **The text of a program**, given the source that its slices are cut from. -/
def Program.generate? (src : List Char) (p : Program) : Option (List Char) :=
  printFrom? src none p.statements

end ModuleForge
