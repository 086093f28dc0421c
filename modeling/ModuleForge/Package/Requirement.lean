import ModuleForge.Package.Version

/-!
# Requirements on versions

A requirement is a list of comparators that all have to match. The parts of a comparator that are not
written, or written as a wildcard, leave that part of the version free.

- `Requirement.parse?`: comparators with commas between them, at most 32, or a wildcard alone.
- `Requirement.isMet`: a pre-release meets a requirement only if one of the comparators names a
  pre-release of the same three numbers.
-/

namespace ModuleForge

/-- How a comparator relates a version to the one it names. -/
inductive Comparator.Operator where
  | exact
  | greater
  | greaterEq
  | less
  | lessEq
  | tilde
  | caret
  | wildcard
  deriving DecidableEq, Repr, Inhabited

/-- An operator and as much of a version as it names. -/
structure Comparator where
  operator : Comparator.Operator
  major : Nat
  minor : Option Nat := none
  patch : Option Nat := none
  pre : List String := []
  deriving DecidableEq, Repr, Inhabited

/-- Comparators that all have to match. -/
structure Requirement where
  comparators : List Comparator
  deriving DecidableEq, Repr, Inhabited

namespace Comparator

/-! ## Reading -/

def isWildcard (c : Char) : Bool := c == '*' || c == 'x' || c == 'X'

def skipSpaces (cs : List Char) : List Char := cs.dropWhile (· == ' ')

/-- The operator at the start; `none` if there is none. -/
def readOperator : List Char → Option Operator × List Char
  | '=' :: rest => (some .exact, rest)
  | '>' :: '=' :: rest => (some .greaterEq, rest)
  | '>' :: rest => (some .greater, rest)
  | '<' :: '=' :: rest => (some .lessEq, rest)
  | '<' :: rest => (some .less, rest)
  | '~' :: rest => (some .tilde, rest)
  | '^' :: rest => (some .caret, rest)
  | cs => (none, cs)

/-- What stands for one of the numbers of a comparator. -/
inductive Part where
  | number (n : Nat)
  | wildcard
  | absent
  deriving DecidableEq, Repr

def Part.number? : Part → Option Nat
  | .number n => some n
  | .wildcard => none
  | .absent => none

/-- A number or a wildcard behind a dot, or nothing. -/
def readPart : List Char → Option (Part × List Char)
  | '.' :: c :: rest =>
    if isWildcard c then some (.wildcard, rest)
    else (Version.readNumber (c :: rest)).map fun (n, rest) => (.number n, rest)
  | '.' :: [] => none
  | cs => some (.absent, cs)

/-- The pre-release and the build of a comparator that names all three numbers; the build counts for
nothing. -/
def readPre (patch : Part) (cs : List Char) : Option (List String × List Char) :=
  match patch with
  | .number _ => do
    let (pre, rest) ← Version.readPre cs
    let (_, rest) ← Version.readBuild rest
    some (pre, rest)
  | _ => some ([], cs)

/-- A comparator at the start of a text, with the blanks behind it. Without operator it is a caret
comparator, or one with wildcards. Behind a wildcard there is no number. -/
def read (cs : List Char) : Option (Comparator × List Char) := do
  let (operator, rest) := readOperator cs
  let (major, rest) ← Version.readNumber (skipSpaces rest)
  let (minor, rest) ← readPart rest
  let (patch, rest) ← readPart rest
  if minor = .wildcard && patch.number?.isSome then none
  else
    let (pre, rest) ← readPre patch rest
    let implied := if minor = .wildcard || patch = .wildcard then .wildcard else .caret
    some ({ operator := operator.getD implied, major, minor := minor.number?,
            patch := patch.number?, pre }, skipSpaces rest)

/-! ## Matching -/

/-- The parts that are named are equal. -/
def isExact (c : Comparator) (v : Version) : Bool :=
  v.major == c.major && (c.minor.all (v.minor == ·)) && (c.patch.all (v.patch == ·)) &&
    v.pre == c.pre

/-- The version is above all that the comparator names. -/
def isGreater (c : Comparator) (v : Version) : Bool :=
  if v.major ≠ c.major then c.major < v.major
  else
    match c.minor with
    | none => false
    | some minor =>
      if v.minor ≠ minor then minor < v.minor
      else
        match c.patch with
        | none => false
        | some patch =>
          if v.patch ≠ patch then patch < v.patch
          else Version.comparePre v.pre c.pre == .gt

/-- The version is below all that the comparator names. -/
def isLess (c : Comparator) (v : Version) : Bool :=
  if v.major ≠ c.major then v.major < c.major
  else
    match c.minor with
    | none => false
    | some minor =>
      if v.minor ≠ minor then v.minor < minor
      else
        match c.patch with
        | none => false
        | some patch =>
          if v.patch ≠ patch then v.patch < patch
          else Version.comparePre v.pre c.pre == .lt

/-- The pre-release is not below that of the comparator. -/
def isPreAtLeast (c : Comparator) (v : Version) : Bool :=
  Version.comparePre v.pre c.pre != .lt

/-- Only the patch may be higher. -/
def isTilde (c : Comparator) (v : Version) : Bool :=
  if v.major ≠ c.major || !(c.minor.all (v.minor == ·)) then false
  else
    match c.patch with
    | none => c.isPreAtLeast v
    | some patch => if v.patch ≠ patch then patch < v.patch else c.isPreAtLeast v

/-- Everything right of the first number that is not zero may be higher. -/
def isCaret (c : Comparator) (v : Version) : Bool :=
  if v.major ≠ c.major then false
  else
    match c.minor, c.patch with
    | none, _ => true
    | some minor, none => if 0 < c.major then minor ≤ v.minor else v.minor == minor
    | some minor, some patch =>
      if v.minor ≠ minor then 0 < c.major && minor < v.minor
      else if v.patch ≠ patch then (0 < c.major || 0 < minor) && patch < v.patch
      else c.isPreAtLeast v

/-- The version fits the comparator, pre-releases apart. -/
def isMet (c : Comparator) (v : Version) : Bool :=
  match c.operator with
  | .exact => c.isExact v
  | .wildcard => c.isExact v
  | .greater => c.isGreater v
  | .greaterEq => c.isExact v || c.isGreater v
  | .less => c.isLess v
  | .lessEq => c.isExact v || c.isLess v
  | .tilde => c.isTilde v
  | .caret => c.isCaret v

/-- The comparator names a pre-release of the same three numbers. -/
def admitsPre (c : Comparator) (v : Version) : Bool :=
  c.major == v.major && c.minor == some v.minor && c.patch == some v.patch && !c.pre.isEmpty

end Comparator

namespace Requirement

/-- The most comparators of a requirement. -/
def maxComparators : Nat := 32

/-- The requirement that every release meets. -/
def any : Requirement := ⟨[]⟩

/-- At most `room` comparators with commas between them, up to the end. -/
def readComparators : Nat → List Char → Option (List Comparator)
  | 0, _ => none
  | room + 1, cs => do
    let (c, rest) ← Comparator.read cs
    match rest with
    | [] => some [c]
    | ',' :: rest => (readComparators room (Comparator.skipSpaces rest)).map (c :: ·)
    | _ => none

/-- **The requirement that a text denotes.** A wildcard for the major number stands alone. -/
def parse? (cs : List Char) : Option Requirement :=
  match Comparator.skipSpaces cs with
  | [] => none
  | c :: rest =>
    if Comparator.isWildcard c then
      if (Comparator.skipSpaces rest).isEmpty then some any else none
    else (readComparators maxComparators (c :: rest)).map .mk

/-- **The version meets the requirement.** -/
def isMet (r : Requirement) (v : Version) : Bool :=
  r.comparators.all (·.isMet v) && (v.pre.isEmpty || r.comparators.any (·.admitsPre v))

end Requirement

end ModuleForge
