import ModuleForge.Text.Split

/-!
# Versions

A version has three numbers and, if it is a pre-release, the identifiers that say which one. Build
identifiers come last. The order compares the numbers, then the pre-release (a release comes after all
its pre-releases), then the build (no build comes first).
-/

namespace ModuleForge

structure Version where
  major : Nat
  minor : Nat
  patch : Nat
  /-- The identifiers of a pre-release; empty for a release. -/
  pre : List String := []
  build : List String := []
  deriving DecidableEq, Repr, Inhabited

namespace Version

/-! ## Reading -/

/-- The numbers of a version have 64 bits. -/
def numberLimit : Nat := Nat.pow 2 64

def isIdentifierChar (c : Char) : Bool := c.isAlphanum || c == '-'

def hasLeadingZero : List Char → Bool
  | '0' :: _ :: _ => true
  | _ => false

/-- A number without leading zero. -/
def readNumber (cs : List Char) : Option (Nat × List Char) :=
  let (digits, rest) := cs.span Char.isDigit
  let value := digits.foldl (fun n c => n * 10 + (c.toNat - '0'.toNat)) 0
  if digits.isEmpty || hasLeadingZero digits || numberLimit ≤ value then none
  else some (value, rest)

/-- Identifiers between dots, none of them empty. With `strict`, numeric ones have no leading zero. -/
def readIdentifiers (strict : Bool) (cs : List Char) : Option (List String × List Char) :=
  let (run, rest) := cs.span fun c => isIdentifierChar c || c == '.'
  let parts := Text.splitOn '.' run
  let isBad (part : List Char) : Bool :=
    part.isEmpty || (strict && hasLeadingZero part && part.all Char.isDigit)
  if parts.any isBad then none else some (parts.map String.ofList, rest)

/-- The pre-release identifiers behind a hyphen, if there is one. -/
def readPre : List Char → Option (List String × List Char)
  | '-' :: rest => readIdentifiers true rest
  | cs => some ([], cs)

/-- The build identifiers behind a plus sign, if there is one. -/
def readBuild : List Char → Option (List String × List Char)
  | '+' :: rest => readIdentifiers false rest
  | cs => some ([], cs)

/-- A dot. -/
def readDot : List Char → Option (List Char)
  | '.' :: rest => some rest
  | _ => none

/-- The version that a text denotes, all of it. -/
def ofChars? (cs : List Char) : Option Version := do
  let (major, rest) ← readNumber cs
  let (minor, rest) ← readNumber (← readDot rest)
  let (patch, rest) ← readNumber (← readDot rest)
  let (pre, rest) ← readPre rest
  let (build, rest) ← readBuild rest
  if rest.isEmpty then some { major, minor, patch, pre, build } else none

def parse? (text : String) : Option Version := ofChars? text.toList

/-! ## Text -/

/-- Identifiers behind a sign, nothing if there are none. -/
def identifiersText (sign : String) : List String → String
  | [] => ""
  | ids => sign ++ String.intercalate "." ids

def text (v : Version) : String :=
  toString v.major ++ "." ++ toString v.minor ++ "." ++ toString v.patch ++
    identifiersText "-" v.pre ++ identifiersText "+" v.build

/-! ## Order -/

def isNumeric (id : String) : Bool := id.toList.all Char.isDigit

/-- Numeric identifiers compare by length first: they have no leading zero. They come before all
others. -/
def comparePreIdentifier (a b : String) : Ordering :=
  match isNumeric a, isNumeric b with
  | true, true => (compare a.length b.length).then (compare a b)
  | true, false => .lt
  | false, true => .gt
  | false, false => compare a b

/-- Numeric identifiers compare by value, and those of one value by their leading zeros. -/
def compareBuildIdentifier (a b : String) : Ordering :=
  match isNumeric a, isNumeric b with
  | true, true =>
    let value (id : String) : List Char := id.toList.dropWhile (· == '0')
    (compare (value a).length (value b).length).then
      ((compare (String.ofList (value a)) (String.ofList (value b))).then
        (compare a.length b.length))
  | true, false => .lt
  | false, true => .gt
  | false, false => compare a b

/-- Compares two lists item by item; a list comes after its beginnings. -/
def compareLists (compareItems : String → String → Ordering) : List String → List String → Ordering
  | [], [] => .eq
  | [], _ :: _ => .lt
  | _ :: _, [] => .gt
  | a :: as, b :: bs => (compareItems a b).then (compareLists compareItems as bs)

/-- A release comes after its pre-releases. -/
def comparePre : List String → List String → Ordering
  | [], [] => .eq
  | [], _ :: _ => .gt
  | _ :: _, [] => .lt
  | as, bs => compareLists comparePreIdentifier as bs

/-- **The order of versions.** -/
def compareTo (a b : Version) : Ordering :=
  (compare a.major b.major).then <| (compare a.minor b.minor).then <|
    (compare a.patch b.patch).then <| (comparePre a.pre b.pre).then <|
    compareLists compareBuildIdentifier a.build b.build

/-- The greatest of a list of versions. -/
def greatest? : List Version → Option Version
  | [] => none
  | v :: rest =>
    match greatest? rest with
    | none => some v
    | some w => some (if compareTo v w == .gt then v else w)

end Version

end ModuleForge
