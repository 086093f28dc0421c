import ModuleForge.Text.Mark
import ModuleForge.Text.Quoted
import ModuleForge.Text.Visible

/-!
# Texts shown in full

A text between double quotes in which every character can be seen: line breaks and the like have short
escapes, and what is hidden or would merge with its neighbour is shown by its code point.
-/

namespace ModuleForge.Text

/-- The escape that names a code point. -/
def codePointEscape (c : Char) : List Char :=
  ['\\', 'u', '\x7b'] ++ (Nat.toDigits 16 c.toNat) ++ ['\x7d']

/-- A character as it is shown. -/
def showChar (c : Char) : List Char :=
  if c == '\x00' then ['\\', '0']
  else if c == '\t' then ['\\', 't']
  else if c == '\r' then ['\\', 'r']
  else if c == '\n' then ['\\', 'n']
  else if c == '\\' then ['\\', '\\']
  else if c == '"' then ['\\', '"']
  else if isExtend c || !isVisible c then codePointEscape c
  else [c]

/-- A text as it is shown. -/
def shown (s : String) : String := String.ofList ('"' :: s.toList.flatMap showChar ++ ['"'])

end ModuleForge.Text
