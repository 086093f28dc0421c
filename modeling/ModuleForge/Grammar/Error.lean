import ModuleForge.Token

/-!
# Parse errors

What can be wrong with the tokens of a module item, and the place where it is noticed.
-/

namespace ModuleForge.Grammar

open Token (Kind)

/-- The causes of a parse error. -/
inductive Fault where
  /-- The text is no token; the message is the token's own. -/
  | lexical (message : String)
  | expected (wanted found : Kind)
  | expectedWord (word : String) (found : Kind)
  | expectedExportName (found : Kind)
  | expectedSpecifier
  | expectedOpening (found : Kind)
  | unclosed (wanted : Kind)
  | mismatched (wanted found : Kind)
  | expectedExpression (found : Kind)
  | expectedClassBody
  | expectedPattern (found : Kind)
  | reservedInPattern (word : String)
  | unexpectedInPattern (found : Kind)
  | unexpectedInImport (found : Kind)
  | missingAs (name : String)
  | unexpectedAfterExport (found : Kind)
  | unnamedExport
  | expectedDeclaration (found : Kind)
  deriving DecidableEq, Repr, Inhabited

def Fault.message : Fault → String
  | lexical message => message
  | expected wanted found => "Expected " ++ wanted.name ++ ", found " ++ found.name
  | expectedWord word found => "Expected '" ++ word ++ "', found " ++ found.name
  | expectedExportName found => "Expected export name, found " ++ found.name
  | expectedSpecifier => "Expected module specifier"
  | expectedOpening found => "Expected opening delimiter, found " ++ found.name
  | unclosed wanted => "Unclosed delimiter, expected " ++ wanted.name
  | mismatched wanted found =>
    "Mismatched delimiter: expected " ++ wanted.name ++ ", found " ++ found.name
  | expectedExpression found => "Expected expression, found " ++ found.name
  | expectedClassBody => "Expected class body"
  | expectedPattern found => "Expected binding pattern, found " ++ found.name
  | reservedInPattern word => "Unexpected keyword '" ++ word ++ "' in binding"
  | unexpectedInPattern found => "Unexpected " ++ found.name ++ " in object pattern"
  | unexpectedInImport found => "Unexpected " ++ found.name ++ " in import declaration"
  | missingAs name => "Expected 'as' after import name '" ++ name ++ "'"
  | unexpectedAfterExport found => "Unexpected " ++ found.name ++ " after export"
  | unnamedExport => "Exported declarations require a name"
  | expectedDeclaration found => "Expected declaration, found " ++ found.name

/-- A fault and the place where it is noticed. -/
structure ParseError where
  fault : Fault
  span : Span
  deriving DecidableEq, Repr, Inhabited

namespace ParseError

def message (e : ParseError) : String :=
  e.fault.message

/-- A span as messages write it. -/
def place (e : ParseError) : String :=
  toString e.span.start ++ ".." ++ toString e.span.stop

def render (e : ParseError) : String :=
  "Parse error at " ++ e.place ++ ": " ++ e.message

end ParseError

end ModuleForge.Grammar
