import ModuleForge.Package.Requirement

/-!
# Ranges of versions

A range is written as alternatives with `||` between them. An alternative is empty, a span with a
hyphen between two versions, or comparators with blanks between them and perhaps also between an
operator and its version. A full or partial version without operator means exactly that one.

- `Range.parse?`: the requirements of the alternatives, in order.
- `Range.best?`: the greatest of the versions that meet one of them.
-/

namespace ModuleForge.Range

def isOperatorChar (c : Char) : Bool :=
  c == '<' || c == '>' || c == '=' || c == '~' || c == '^'

/-- Joins operators that stand alone with the word behind them; operators at the end are dropped. -/
def attachOperators (pending : List Char) : List (List Char) → List (List Char)
  | [] => []
  | word :: rest =>
    if word.all isOperatorChar then attachOperators (pending ++ word) rest
    else (pending ++ word) :: attachOperators [] rest

/-- The comparator that a word stands for: a version without operator means exactly that one, and a
`v` in front of it counts for nothing. -/
def comparatorText (word : List Char) : List Char :=
  let word := match word with
    | 'v' :: rest => rest
    | _ => word
  let isBare := (word.head?.map Char.isDigit).getD false
  if isBare && !word.any Comparator.isWildcard then '=' :: word else word

/-- The text of the requirement of one alternative that is not empty. -/
def requirementText (alternative : List Char) : List Char :=
  match Text.splitOnce? [' ', '-', ' '] alternative with
  | some (low, high) => '>' :: '=' :: Text.trim low ++ ',' :: ' ' :: '<' :: '=' :: Text.trim high
  | none =>
    [',', ' '].intercalate ((attachOperators [] (Text.words alternative)).map comparatorText)

/-- The requirement of one alternative; every release meets an empty one. -/
def alternative? (cs : List Char) : Option Requirement :=
  match Text.trim cs with
  | [] => some Requirement.any
  | cs => Requirement.parse? (requirementText cs)

/-- **The requirements of a range**, one for each alternative. -/
def parse? (range : String) : Option (List Requirement) :=
  (Text.splitOnText ['|', '|'] range.toList).mapM alternative?

/-- A version in one of the alternatives. -/
def contains (requirements : List Requirement) (v : Version) : Bool :=
  requirements.any (·.isMet v)

/-- **The greatest of the versions in a range**; texts that are no versions do not count. -/
def best? (versions : List String) (requirements : List Requirement) : Option Version :=
  Version.greatest? ((versions.filterMap Version.parse?).filter (contains requirements))

/-- A range without the blanks in front of it and all that follows the first blank behind it. -/
def normalize (range : String) : String :=
  String.ofList ((Text.trimStart range.toList).takeWhile fun c => !Text.isBlank c)

end ModuleForge.Range
