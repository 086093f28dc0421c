import ModuleForge.Text.Letter
import ModuleForge.Text.Mark
import ModuleForge.Text.Number

/-!
# Word characters

Two notions of "part of a word": letters and numbers, which is what identifiers are built from, and
the wider class that text patterns use, with marks, connectors and joiners.
-/

namespace ModuleForge.Text

/-- A letter or a number of some script. -/
def isAlnum (c : Char) : Bool :=
  isLetter c || isNumeric c

/-- Connector punctuation (general category Pc), the underscore included. -/
def isConnector (c : Char) : Bool :=
  let n := c.toNat
  n == 0x5F || n == 0x203F || n == 0x2040 || n == 0x2054 || n == 0xFE33 || n == 0xFE34 ||
    (0xFE4D ≤ n && n ≤ 0xFE4F) || n == 0xFF3F

/-- The zero-width joiner and non-joiner. -/
def isJoiner (c : Char) : Bool :=
  c == '\u200c' || c == '\u200d'

/-- A word character of a text pattern: letter, mark, decimal digit, connector or joiner. -/
def isWord (c : Char) : Bool :=
  isLetter c || isDecimal c || isConnector c || isMark c || isJoiner c

end ModuleForge.Text
