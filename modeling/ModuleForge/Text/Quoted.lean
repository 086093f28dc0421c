/-!
# Quoted text

The double-quoted string literal that JSON and JavaScript share. A quote, a backslash and the
characters below the space are escaped, everything else stands for itself.
-/

namespace ModuleForge.Text

/-- The hexadecimal digit of a number below sixteen, in lower case. -/
def hexDigit (n : Nat) : Char :=
  if n < 10 then Char.ofNat ('0'.toNat + n) else Char.ofNat ('a'.toNat + (n - 10))

/-- A character as it stands between quotes. -/
def quoteChar (c : Char) : List Char :=
  if c == '"' then ['\\', '"']
  else if c == '\\' then ['\\', '\\']
  else if c == '\n' then ['\\', 'n']
  else if c == '\r' then ['\\', 'r']
  else if c == '\t' then ['\\', 't']
  else if c == '\x08' then ['\\', 'b']
  else if c == '\x0c' then ['\\', 'f']
  else if c.toNat < 0x20 then
    ['\\', 'u', '0', '0', hexDigit (c.toNat / 16), hexDigit (c.toNat % 16)]
  else [c]

/-- The characters that are escaped by a letter, each with its letter. -/
def letterEscapes : List (Char × Char) :=
  [('"', '"'), ('\\', '\\'), ('\n', 'n'), ('\r', 'r'), ('\t', 't'), ('\x08', 'b'), ('\x0c', 'f')]

/-- The ways in which a character can stand between quotes. -/
inductive QuotedAs (c : Char) : List Char → Prop where
  | letter {d : Char} : (c, d) ∈ letterEscapes → QuotedAs c ['\\', d]
  | control : c.toNat < 0x20 →
      QuotedAs c ['\\', 'u', '0', '0', hexDigit (c.toNat / 16), hexDigit (c.toNat % 16)]
  | plain : c ≠ '"' → c ≠ '\\' → 0x20 ≤ c.toNat → QuotedAs c [c]

theorem quotedAs_quoteChar (c : Char) : QuotedAs c (quoteChar c) := by
  have hletter {d e : Char} (h : (c == d) = true) (hd : (d, e) ∈ letterEscapes) :
      QuotedAs c ['\\', e] := by
    rw [eq_of_beq h]
    exact .letter hd
  unfold quoteChar
  iterate 7
    split
    · exact hletter ‹_› (by decide)
  rename_i hquote hslash _ _ _ _ _
  split
  · exact .control ‹_›
  · exact .plain (by simpa using hquote) (by simpa using hslash) (Nat.le_of_not_lt ‹_›)

/-- The characters of a text as they stand between quotes. -/
def quoteChars : List Char → List Char
  | [] => []
  | c :: rest => quoteChar c ++ quoteChars rest

/-- The string literal of a text. -/
def quote (cs : List Char) : List Char :=
  '"' :: quoteChars cs ++ ['"']

end ModuleForge.Text
