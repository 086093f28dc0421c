import ModuleForge.Toml.Reader

/-!
# TOML documents

What the lines of a document say together: a table. No table is defined twice, no key is set twice,
and keys with dots do not reach into a table that has a header of its own.
-/

namespace ModuleForge.Toml

/-- How a table came to be. -/
inductive Origin where
  /-- By a header of its own. -/
  | header
  /-- By the header of a table inside it; it may still get one of its own. -/
  | implied
  /-- By a key with dots. -/
  | dotted
  deriving DecidableEq, Repr, Inhabited

/-- A part of a document while it is read. -/
inductive Item where
  | value (v : Toml)
  | table (origin : Origin) (entries : List (String × Item))
  /-- An array of tables; the last one is still open. -/
  | tables (closed : List (List (String × Item))) (last : List (String × Item))
  deriving Inhabited

abbrev Entries := List (String × Item)

namespace Entries

/-- Sets an entry, at its old place if there is one. -/
def put (entries : Entries) (key : String) (item : Item) : Entries :=
  if entries.any (·.1 == key) then entries.map fun e => if e.1 == key then (key, item) else e
  else entries ++ [(key, item)]

/-- Changes the table at the end of a path of a header. Tables that are missing on the way are
implied; in an array of tables the last one is meant. -/
def modifyAt (change : Entries → Option Entries) : List String → Entries → Option Entries
  | [], entries => change entries
  | key :: path, entries =>
    match entries.lookup key with
    | none =>
      (modifyAt change path []).map fun child => entries.put key (.table .implied child)
    | some (.value _) => none
    | some (.tables closed last) =>
      (modifyAt change path last).map fun last => entries.put key (.tables closed last)
    | some (.table origin child) =>
      (modifyAt change path child).map fun child => entries.put key (.table origin child)

/-- A dotted key may put a value into a table that dotted keys made, and reach through one that has no
header of its own. -/
def admitsDotted (origin : Origin) (isLast : Bool) : Bool :=
  match origin with
  | .dotted => true
  | .implied => !isLast
  | .header => false

/-- Changes the table at the end of the dots of a key. Tables that are missing on the way are made. -/
def modifyDotted (change : Entries → Option Entries) : List String → Entries → Option Entries
  | [], entries => change entries
  | key :: path, entries =>
    match entries.lookup key with
    | none => (modifyDotted change path []).map fun child => entries.put key (.table .dotted child)
    | some (.value _) => none
    | some (.tables closed last) =>
      if path.isEmpty then none
      else (modifyDotted change path last).map fun last => entries.put key (.tables closed last)
    | some (.table origin child) =>
      if admitsDotted origin path.isEmpty then
        (modifyDotted change path child).map fun child => entries.put key (.table origin child)
      else none

/-- A table gets its header. -/
def define (key : String) (entries : Entries) : Option Entries :=
  match entries.lookup key with
  | none => some (entries.put key (.table .header []))
  | some (.table .implied child) => some (entries.put key (.table .header child))
  | some _ => none

/-- An array of tables gets one more. -/
def extend (key : String) (entries : Entries) : Option Entries :=
  match entries.lookup key with
  | none => some (entries.put key (.tables [] []))
  | some (.tables closed last) => some (entries.put key (.tables (closed ++ [last]) []))
  | some _ => none

/-- A key gets its value. -/
def assign (key : String) (v : Toml) (entries : Entries) : Option Entries :=
  if entries.any (·.1 == key) then none else some (entries.put key (.value v))

/-- A path as the way to a table and a last name. -/
def splitLast? (path : List String) : Option (List String × String) :=
  path.getLast?.map fun key => (path.dropLast, key)

/-- Adds a line to a document. `current` is the path of the last header. -/
def addLine (current : List String) (root : Entries) : Line → Option (List String × Entries)
  | .header path => do
    let (way, key) ← splitLast? path
    some (path, ← root.modifyAt (define key) way)
  | .arrayHeader path => do
    let (way, key) ← splitLast? path
    some (path, ← root.modifyAt (extend key) way)
  | .entry path v => do
    let (way, key) ← splitLast? path
    some (current, ← root.modifyAt (modifyDotted (assign key v) way) current)

/-- Adds lines to a document. -/
def addLines (current : List String) (root : Entries) : List Line → Option Entries
  | [] => some root
  | line :: rest => do
    let (current, root) ← addLine current root line
    addLines current root rest

end Entries

mutual

def Item.toToml : Item → Toml
  | .value v => v
  | .table _ entries => .table (itemsToToml entries)
  | .tables closed last => .array (tablesToToml closed ++ [.table (itemsToToml last)])

def itemsToToml : List (String × Item) → List (String × Toml)
  | [] => []
  | (key, item) :: rest => (key, item.toToml) :: itemsToToml rest

def tablesToToml : List (List (String × Item)) → List Toml
  | [] => []
  | entries :: rest => .table (itemsToToml entries) :: tablesToToml rest

end

/-- **The table that a document denotes.** -/
def parse (text : String) : Option Toml := do
  let lines ← readLines text
  let root ← Entries.addLines [] [] lines
  some (.table (itemsToToml root))

end ModuleForge.Toml
