import ModuleForge.Grammar.Binding
import ModuleForge.Statement

/-!
# Module items

The grammar of `import` and `export` statements.
-/

namespace ModuleForge.Grammar

open Token (Kind)

/-! ## Names and sources -/

/-- A name on the surface of a module and its place. -/
structure PlacedName where
  name : ExportName
  span : Span

/-- Reads an identifier, a reserved word or a string as a name on the surface of a module. -/
def exportName : Parse PlacedName := fun s =>
  let t := s.current
  if t.kind == .string then .ok ⟨.str t.value, t.span⟩ s.advance
  else if t.isIdentifierName then .ok ⟨.ident t.value, t.span⟩ s.advance
  else .error ⟨.expectedExportName t.kind, t.span⟩ s

/-- Steps over `with {...}` or `assert {...}` on the line of the module's specifier. -/
def optionalAttributes : Parse Unit := fun s =>
  let t := s.current
  if !t.newlineBefore && (t.kind == .kwWith || t.isWord "assert") && s.kindAt? 1 == some .lbrace then
    skipBalanced s.advance
  else .ok () s

/-- Reads the specifier of a module. Anything but a string is stepped over as an expression. -/
def moduleSource : Parse ModuleSource := do
  let t ← peek
  match t.kind with
  | .string => do
    skip
    optionalAttributes
    pure (.literal t.value)
  | .eof => fail fun _ => .expectedSpecifier
  | _ => do
    skipExpression false
    pure .dynamic

/-- Reads `from "m"`. -/
def fromClause : Parse ModuleSource := do
  word "from"
  moduleSource

/-! ## Lists in braces -/

/-- Reads elements up to the closing brace, with commas between them and perhaps behind the last. -/
def elementsToBrace {α : Type} (element : Parse α) (s : Tokens) : Result (List α) :=
  if s.check .rbrace || s.atEnd then (consume .rbrace *> pure []) s
  else
    match element s with
    | .error e s' => .error e s'
    | .ok a s' =>
      match separator .rbrace s' with
      | .error e s' => .error e s'
      | .ok () s' =>
        if s'.left < s.left then mapOk (a :: ·) (elementsToBrace element s') else .ok [a] s'
termination_by s.left

/-- Reads a list in braces. -/
def inBraces {α : Type} (element : Parse α) : Parse (List α) := do
  let _ ← consume .lbrace
  elementsToBrace element

/-! ## Imports -/

/-- Reads `name` or `name as binding`. -/
def importSpecifier : Parse ImportSpecifier := do
  let first ← peek
  let imported ← exportName
  if ← optionalWord "as" then
    let binding ← identifier
    pure (.named imported.name binding)
  else if first.kind == .identifier then
    pure (.named imported.name ⟨imported.name.text, imported.span⟩)
  else fun s => .error ⟨.missingAs imported.name.text, imported.span⟩ s

/-- Reads `* as name` or a list in braces. -/
def importClause : Parse (List ImportSpecifier) := do
  let t ← peek
  match t.kind with
  | .star => do
    skip
    word "as"
    let binding ← identifier
    pure [.namespace binding]
  | .lbrace => inBraces importSpecifier
  | _ => fail .unexpectedInImport

/-- Reads what stands between `import` and `from`. -/
def importSpecifiers : Parse (List ImportSpecifier) := do
  match ← optionalIdentifier with
  | none => importClause
  | some binding =>
    if ← optional .comma then
      let more ← importClause
      pure (.default binding :: more)
    else pure [.default binding]

/-- Reads an import statement. -/
def importDecl : Parse ImportDecl := do
  let keyword ← consume .kwImport
  let t ← peek
  let specifiers ← if t.kind == .string then pure [] else importSpecifiers
  let source ← if t.kind == .string then moduleSource else fromClause
  optionalSemicolon
  let stop ← lastEnd
  pure { specifiers, source, span := ⟨keyword.span.start, stop⟩ }

/-! ## Exports -/

/-- Reads `name` or `name as exported`. -/
def exportSpecifier : Parse ExportSpecifier := do
  let inner ← exportName
  if ← optionalWord "as" then
    let exported ← exportName
    pure ⟨inner.name, exported.name⟩
  else pure ⟨inner.name, inner.name⟩

/-- Whether `async function` follows without a line break between the two. -/
def atAsyncFunction (s : Tokens) : Bool :=
  s.current.isWord "async" &&
    s.rest[1]?.any fun next => next.kind == .kwFunction && !next.newlineBefore

/-- Steps over `async`, if a function follows it. -/
def optionalAsync : Parse Unit := fun s =>
  .ok () (if atAsyncFunction s then s.advance else s)

/-- Reads `[async] function ...` or `class ...`. -/
def hoistable : Parse (DeclKind × Skipped) := do
  optionalAsync
  let t ← peek
  match t.kind with
  | .kwFunction => do
    let skipped ← skipFunction
    pure (.function, skipped)
  | .kwClass => do
    let skipped ← skipClass
    pure (.class, skipped)
  | _ => fail .expectedDeclaration

/-- Reads `* [as name] from "m"` behind an `export` at `start`. -/
def exportAll (start : Nat) : Parse Statement := do
  let _ ← consume .star
  let isNamed ← optionalWord "as"
  let asName ← if isNamed then (fun n => some n.name) <$> exportName else pure none
  let source ← fromClause
  optionalSemicolon
  let stop ← lastEnd
  pure (.exportAll { source, asName, span := ⟨start, stop⟩ })

/-- Reads `from "m"`, if the word follows. -/
def optionalFrom : Parse (Option ModuleSource) := do
  let t ← peek
  if t.isWord "from" then some <$> fromClause else pure none

/-- Reads `{ ... } [from "m"]` behind an `export` at `start`. -/
def exportNamed (start : Nat) : Parse Statement := do
  let specifiers ← inBraces exportSpecifier
  let source ← optionalFrom
  optionalSemicolon
  let stop ← lastEnd
  pure (.exportNamed { specifiers, source, span := ⟨start, stop⟩ })

/-- Reads a `var`, `let` or `const` declaration behind an `export` at `start`. -/
def exportVariables (start : Nat) : Parse Statement := do
  let keyword ← peek
  skip
  let names ← declarators
  optionalSemicolon
  let stop ← lastEnd
  pure (.exportDecl
    { kind := .var, decl := ⟨keyword.span.start, stop⟩, names, span := ⟨start, stop⟩ })

/-- Reads a function or class behind an `export` at `start`; it has a name. -/
def exportHoistable (start : Nat) : Parse Statement := do
  let first ← peek
  let (kind, skipped) ← hoistable
  let stop ← lastEnd
  let decl : Span := ⟨first.span.start, stop⟩
  match skipped.name with
  | some name => pure (.exportDecl { kind, decl, names := [name], span := ⟨start, stop⟩ })
  | none => fun s => .error ⟨.unnamedExport, decl⟩ s

/-- Whether a function or a class follows. -/
def atHoistable (s : Tokens) : Bool :=
  s.current.kind == .kwFunction || s.current.kind == .kwClass || atAsyncFunction s

/-- Reads the declaration of a default export that starts at `start`. -/
def exportDefaultDecl (start : Nat) : Parse Statement := do
  let first ← peek
  let (kind, skipped) ← hoistable
  let stop ← lastEnd
  pure (.exportDefault
    (.decl kind skipped.name ⟨first.span.start, stop⟩ skipped.keywordEnd ⟨start, stop⟩))

/-- Reads the expression of a default export that starts at `start`. -/
def exportDefaultExpr (start : Nat) : Parse Statement := do
  let first ← peek
  skipExpression false
  let exprStop ← lastEnd
  optionalSemicolon
  let stop ← lastEnd
  pure (.exportDefault (.expr ⟨first.span.start, exprStop⟩ ⟨start, stop⟩))

/-- Reads `default ...` behind an `export` at `start`. -/
def exportDefault (start : Nat) : Parse Statement := do
  let _ ← consume .kwDefault
  if atHoistable (← get) then exportDefaultDecl start else exportDefaultExpr start

/-- Reads an export statement. -/
def exportItem : Parse Statement := do
  let keyword ← consume .kwExport
  let start := keyword.span.start
  let t ← peek
  match t.kind with
  | .star => exportAll start
  | .lbrace => exportNamed start
  | .kwDefault => exportDefault start
  | .kwVar | .kwLet | .kwConst => exportVariables start
  | .kwFunction | .kwClass | .identifier => exportHoistable start
  | _ => fail .unexpectedAfterExport

/-- Reads an import or export statement. -/
def moduleItem : Parse Statement := do
  let t ← peek
  if t.kind == .kwImport then .importFrom <$> importDecl else exportItem

/-- Whether a module item starts here: an `import` that is no call and no meta property, or an
`export`. -/
def atModuleItem (s : Tokens) : Bool :=
  match s.current.kind with
  | .kwImport => s.kindAt? 1 != some .lparen && s.kindAt? 1 != some .dot
  | .kwExport => true
  | _ => false

end ModuleForge.Grammar
