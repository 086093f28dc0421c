import ModuleForge.Text.Blank

/-!
# Splitting texts

Parts of a text between separators. A text without separator is one part, and separators at the ends
or side by side leave empty parts; words are never empty.
-/

namespace ModuleForge.Text

/-- Puts a character in front of the first part. -/
def extendFirst (c : Char) : List (List Char) → List (List Char)
  | [] => [[c]]
  | part :: rest => (c :: part) :: rest

/-- The parts between the characters of a class. -/
def splitWhere (separates : Char → Bool) : List Char → List (List Char)
  | [] => [[]]
  | c :: rest =>
    if separates c then [] :: splitWhere separates rest
    else extendFirst c (splitWhere separates rest)

/-- The parts between the occurrences of a character. -/
def splitOn (separator : Char) : List Char → List (List Char) := splitWhere (· == separator)

/-- The words of a text: what stands between blanks. -/
def words (cs : List Char) : List (List Char) :=
  (splitWhere isBlank cs).filter fun part => !part.isEmpty

/-- The parts between the occurrences of a text, found from the left. `skip` characters belong to the
occurrence before. -/
def splitOnTextFrom (separator : List Char) : Nat → List Char → List (List Char)
  | _, [] => [[]]
  | skip + 1, _ :: rest => splitOnTextFrom separator skip rest
  | 0, c :: rest =>
    if separator.isPrefixOf (c :: rest) then
      [] :: splitOnTextFrom separator (separator.length - 1) rest
    else extendFirst c (splitOnTextFrom separator 0 rest)

/-- The parts between the occurrences of a text. -/
def splitOnText (separator cs : List Char) : List (List Char) := splitOnTextFrom separator 0 cs

/-- What stands before and behind the first occurrence of a text. -/
def splitOnce? (separator : List Char) : List Char → Option (List Char × List Char)
  | [] => if separator.isEmpty then some ([], []) else none
  | c :: rest =>
    if separator.isPrefixOf (c :: rest) then some ([], (c :: rest).drop separator.length)
    else (splitOnce? separator rest).map fun (before, after) => (c :: before, after)

/-- Drops a text from the front, if it stands there. -/
def dropStart? (start cs : List Char) : Option (List Char) :=
  if start.isPrefixOf cs then some (cs.drop start.length) else none

/-- Drops a character from the end as often as it stands there. -/
def dropEndWhile (c : Char) (cs : List Char) : List Char :=
  (cs.reverse.dropWhile (· == c)).reverse

/-- Replaces the first occurrence of a character by a text. -/
def replaceFirst (c : Char) (by' : List Char) : List Char → List Char
  | [] => []
  | d :: rest => if d == c then by' ++ rest else d :: replaceFirst c by' rest

end ModuleForge.Text
