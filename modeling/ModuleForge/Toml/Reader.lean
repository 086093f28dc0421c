import ModuleForge.Toml.Scalar

/-!
# Reading TOML

`Toml.readLines` splits a document into the lines that say something. What they say together is for
`Toml.Document`.
-/

namespace ModuleForge.Toml

/-- The limit for the nesting of arrays and inline tables, and for the names of a key. -/
def maxNesting : Nat := 79

/-! ## Blanks and comments -/

/-- What follows a comment, if there is one. -/
def skipComment : List Char → List Char
  | '#' :: rest => rest.dropWhile isText
  | cs => cs

/-- What follows the end of a line: spaces, perhaps a comment, and a line break or the end. -/
def readLineEnd (cs : List Char) : Option (List Char) :=
  match skipComment (skipSpaces cs) with
  | [] => some []
  | rest => readNewline rest

/-- Skips spaces, line breaks and comments inside an array. -/
def skipFiller : Nat → List Char → List Char
  | 0, cs => cs
  | fuel + 1, cs =>
    match cs with
    | ' ' :: rest => skipFiller fuel rest
    | '\t' :: rest => skipFiller fuel rest
    | '\n' :: rest => skipFiller fuel rest
    | '\r' :: '\n' :: rest => skipFiller fuel rest
    | '#' :: rest => skipFiller fuel (rest.dropWhile isText)
    | cs => cs

/-! ## Inline tables -/

/-- A table as it is built up. It is closed if it was written out as a whole, and dotted if a key with
dots made it. -/
inductive Node where
  | value (v : Toml)
  | dotted (entries : List (String × Node))
  deriving Inhabited

/-- Puts a value at the end of a path; the tables on the way must come from keys with dots. -/
def insertDotted : List String → Toml → List (String × Node) → Option (List (String × Node))
  | [], _, _ => none
  | [key], v, entries =>
    if entries.any (·.1 == key) then none else some (entries ++ [(key, .value v)])
  | key :: rest, v, entries =>
    match entries.lookup key with
    | none => (insertDotted rest v []).map fun child => entries ++ [(key, .dotted child)]
    | some (.value _) => none
    | some (.dotted child) =>
      (insertDotted rest v child).map fun child =>
        entries.map fun e => if e.1 == key then (key, .dotted child) else e

mutual

def Node.toToml : Node → Toml
  | .value v => v
  | .dotted entries => .table (entriesToToml entries)

def entriesToToml : List (String × Node) → List (String × Toml)
  | [] => []
  | (key, node) :: rest => (key, node.toToml) :: entriesToToml rest

end

/-- The table of entries with paths. -/
def tableOf (entries : List (List String × Toml)) : Option Toml :=
  let insert (table : List (String × Node)) (e : List String × Toml) := insertDotted e.1 e.2 table
  (entries.foldlM insert []).map fun table => .table (entriesToToml table)

/-! ## Values -/

mutual

/-- A value at the start of the text, inside `depth` arrays and inline tables. -/
def readValue : Nat → Nat → List Char → Option (Toml × List Char)
  | 0, _, _ => none
  | fuel + 1, depth, cs =>
    match cs with
    | [] => none
    | '"' :: _ => (readString cs).map fun (s, rest) => (.string (String.ofList s), rest)
    | '\'' :: _ => (readString cs).map fun (s, rest) => (.string (String.ofList s), rest)
    | 't' :: 'r' :: 'u' :: 'e' :: rest => some (.bool true, rest)
    | 'f' :: 'a' :: 'l' :: 's' :: 'e' :: rest => some (.bool false, rest)
    | '[' :: rest =>
      if maxNesting ≤ depth then none
      else
        (readItems fuel (depth + 1) (skipFiller rest.length rest)).map fun (items, rest) =>
          (.array items, rest)
    | '\x7b' :: rest =>
      if maxNesting ≤ depth then none
      else
        match skipSpaces rest with
        | '\x7d' :: rest => some (.table [], rest)
        | rest =>
          match readInlineEntries fuel (depth + 1) rest with
          | none => none
          | some (entries, rest) => (tableOf entries).map (·, rest)
    | _ => readNumber cs

/-- The items of an array up to its closing bracket. A comma may follow the last one. -/
def readItems : Nat → Nat → List Char → Option (List Toml × List Char)
  | 0, _, _ => none
  | fuel + 1, depth, cs =>
    match cs with
    | ']' :: rest => some ([], rest)
    | _ =>
      match readValue fuel depth cs with
      | none => none
      | some (item, rest) =>
        match skipFiller rest.length rest with
        | ']' :: rest => some ([item], rest)
        | ',' :: rest =>
          (readItems fuel depth (skipFiller rest.length rest)).map fun (items, rest) =>
            (item :: items, rest)
        | _ => none

/-- The entries of an inline table up to its closing brace; there is at least one. -/
def readInlineEntries : Nat → Nat → List Char → Option (List (List String × Toml) × List Char)
  | 0, _, _ => none
  | fuel + 1, depth, cs =>
    match readPath maxNesting cs with
    | some (path, '=' :: rest) =>
      match readValue fuel depth (skipSpaces rest) with
      | none => none
      | some (value, rest) =>
        match skipSpaces rest with
        | '\x7d' :: rest => some ([(path, value)], rest)
        | ',' :: rest =>
          (readInlineEntries fuel depth rest).map fun (entries, rest) =>
            ((path, value) :: entries, rest)
        | _ => none
    | _ => none

end

/-! ## Lines -/

/-- A header behind its opening brackets, with the end of its line. -/
def readHeader (closing cs : List Char) : Option (List String × List Char) := do
  let (path, rest) ← readPath maxNesting cs
  if closing.isPrefixOf rest then some (path, ← readLineEnd (rest.drop closing.length)) else none

/-- A key with its value, with the end of the line. -/
def readEntry (cs : List Char) : Option (Line × List Char) := do
  let (path, rest) ← readPath maxNesting cs
  let rest ← readChar '=' rest
  let (value, rest) ← readValue (2 * rest.length + 2) 0 (skipSpaces rest)
  some (.entry path value, ← readLineEnd rest)

/-- The lines of a document from a place where a line may start. -/
def readLinesFrom : Nat → List Char → Option (List Line)
  | 0, _ => none
  | fuel + 1, cs =>
    match skipSpaces cs with
    | [] => some []
    | '#' :: rest => do readLinesFrom fuel (← readLineEnd ('#' :: rest))
    | '\n' :: rest => readLinesFrom fuel rest
    | '\r' :: rest => do readLinesFrom fuel (← readNewline ('\r' :: rest))
    | '[' :: '[' :: rest => do
      let (path, rest) ← readHeader [']', ']'] rest
      let lines ← readLinesFrom fuel rest
      some (.arrayHeader path :: lines)
    | '[' :: rest => do
      let (path, rest) ← readHeader [']'] rest
      let lines ← readLinesFrom fuel rest
      some (.header path :: lines)
    | cs => do
      let (line, rest) ← readEntry cs
      let lines ← readLinesFrom fuel rest
      some (line :: lines)

/-- **The lines of a document that say something.** A byte order mark may stand before them. -/
def readLines (text : String) : Option (List Line) :=
  let cs := match text.toList with
    | '\ufeff' :: rest => rest
    | cs => cs
  readLinesFrom (cs.length + 1) cs

end ModuleForge.Toml
