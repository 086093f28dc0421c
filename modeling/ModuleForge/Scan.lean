import ModuleForge.Dependency
import ModuleForge.Text.Blank
import ModuleForge.Text.Word

/-!
# Quick looks at a source

Tests on the text alone, without tokens. They look for patterns at the start of lines and statements
and can be misled by what stands in strings and comments.

- `Scan.isModule`: does the text seem to have import or export statements?
- `Scan.needsTranspile`: or calls of `import`?
- `Scan.requires`: the calls of `require` with a string or template.
-/

namespace ModuleForge.Scan

open Text

/-- What follows a given start of a text. -/
def after? (start : List Char) (cs : List Char) : Option (List Char) :=
  if start.isPrefixOf cs then some (cs.drop start.length) else none

/-- A word character or `$`. -/
def isNameChar (c : Char) : Bool :=
  isWord c || c == '$'

/-! ## Import and export statements -/

/-- What follows `import` in a statement: a name behind blanks, or a star, brace or quote. -/
def importFollows (cs : List Char) : Bool :=
  match cs.dropWhile isBlank with
  | [] => false
  | c :: _ =>
    c == '*' || c == '\x7b' || c == '"' || c == '\'' ||
      (isNameChar c && cs.head?.any isBlank)

/-- The words that start what can be exported. -/
def exportWords : List String :=
  ["default", "var", "let", "const", "function", "class", "async"]

/-- A whole word stands at the start of the text. -/
def startsWithWord (cs : List Char) (word : String) : Bool :=
  match after? word.toList cs with
  | none => false
  | some rest => !rest.head?.any isWord

/-- What follows `export` in a statement: a star or brace, or one of the words behind blanks. -/
def exportFollows (cs : List Char) : Bool :=
  let rest := cs.dropWhile isBlank
  rest.head?.any (fun c => c == '*' || c == '\x7b') ||
    (cs.head?.any isBlank && exportWords.any (startsWithWord rest))

/-- An import or export statement stands here, behind spaces and tabs. -/
def startsItem (cs : List Char) : Bool :=
  let cs := cs.dropWhile fun c => c == ' ' || c == '\t'
  (after? "import".toList cs).any importFollows || (after? "export".toList cs).any exportFollows

/-- A character behind which a statement can start. -/
def opensStatement (c : Char) : Bool :=
  c == '\n' || c == ';' || c == '\x7b' || c == '\x7d'

/-- An import or export statement stands behind one of the characters. -/
def itemBehind : List Char → Bool
  | [] => false
  | c :: rest => (opensStatement c && startsItem rest) || itemBehind rest

/-- The text seems to have import or export statements. -/
def isModule (source : String) : Bool :=
  startsItem source.toList || itemBehind source.toList

/-! ## Calls -/

/-- A character behind which a name of its own can start. -/
def separates (c : Char) : Bool :=
  c != '.' && !isNameChar c

/-- A call of `import` stands here. -/
def startsImportCall (cs : List Char) : Bool :=
  (after? "import".toList cs).any fun rest => (rest.dropWhile isBlank).head? == some '('

/-- A call of `import` stands behind one of the characters. -/
def importCallBehind : List Char → Bool
  | [] => false
  | c :: rest => (separates c && startsImportCall rest) || importCallBehind rest

/-- The text seems to need more than being passed on: statements or calls that import. -/
def needsTranspile (source : String) : Bool :=
  isModule source || startsImportCall source.toList || importCallBehind source.toList

/-- The text up to the next `quote`, and what follows that quote. With `oneLine` a line feed may not
stand before it. -/
def quoted? (quote : Char) (oneLine : Bool) (cs : List Char) : Option (List Char × List Char) :=
  let inside := cs.takeWhile fun c => c != quote && !(oneLine && c == '\n')
  match cs.drop inside.length with
  | [] => none
  | c :: rest => if c == quote then some (inside, rest) else none

/-- The argument of a call: a string on one line, or a template. -/
def argument? : List Char → Option (Dependency × List Char)
  | '"' :: rest => (quoted? '"' true rest).map fun (t, r) => ({ path := String.ofList t }, r)
  | '\'' :: rest => (quoted? '\'' true rest).map fun (t, r) => ({ path := String.ofList t }, r)
  | '`' :: rest => (quoted? '`' false rest).map fun (t, r) => (.ofTemplate (String.ofList t), r)
  | _ => none

/-- A call of `require` that stands here, and what follows it. -/
def requireCall? (cs : List Char) : Option (Dependency × List Char) := do
  let rest ← after? "require".toList cs
  let rest ← after? ['('] (rest.dropWhile isBlank)
  let (dependency, rest) ← argument? (rest.dropWhile isBlank)
  let rest ← after? [')'] (rest.dropWhile isBlank)
  pure (dependency, rest)

/-- The calls of `require` that stand behind a character; the character before a call is not part of
the call before. -/
def requiresBehind (cs : List Char) : List Dependency :=
  match cs with
  | [] => []
  | c :: rest =>
    if separates c then
      match requireCall? rest with
      | some (dependency, after) =>
        if after.length < rest.length + 1 then dependency :: requiresBehind after else [dependency]
      | none => requiresBehind rest
    else requiresBehind rest
termination_by cs.length

/-- **The dependencies that calls of `require` name**, each once, in order of first appearance. -/
def requires (source : String) : List Dependency :=
  let cs := source.toList
  let found :=
    match requireCall? cs with
    | some (dependency, after) => dependency :: requiresBehind after
    | none => requiresBehind cs
  found.eraseDups

end ModuleForge.Scan
