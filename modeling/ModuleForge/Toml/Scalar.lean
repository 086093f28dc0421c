import ModuleForge.Decimal.Double
import ModuleForge.Json.Reader
import ModuleForge.Toml

/-!
# Scalars of TOML

Numbers, dates, times and strings. The readers take the rest of the text and answer what stands at
its start and what follows, or `none` if there is no such thing.
-/

namespace ModuleForge.Toml

/-! ## Characters -/

/-- Space or tab. -/
def isSpace (c : Char) : Bool := c == ' ' || c == '\t'

def skipSpaces (cs : List Char) : List Char := cs.dropWhile isSpace

/-- A character of a comment or a string: a tab, or one that is not a control character. -/
def isText (c : Char) : Bool := c == '\t' || (0x20 ≤ c.toNat && c.toNat ≠ 0x7F)

/-- What follows a line break. -/
def readNewline : List Char → Option (List Char)
  | '\n' :: rest => some rest
  | '\r' :: '\n' :: rest => some rest
  | _ => none

/-! ## Numbers -/

def isHexDigit (c : Char) : Bool := (Json.hexValue? c).isSome

def isOctalDigit (c : Char) : Bool := '0' ≤ c && c ≤ '7'

def isBinaryDigit (c : Char) : Bool := c == '0' || c == '1'

/-- Digits behind the first one, each perhaps with an underscore before it. `none` if an underscore
has no digit behind it. -/
def readMoreDigits (isDigit : Char → Bool) : List Char → Option (List Char × List Char)
  | [] => some ([], [])
  | '_' :: c :: rest =>
    if isDigit c then
      (readMoreDigits isDigit rest).map fun (digits, rest) => (c :: digits, rest)
    else none
  | ['_'] => none
  | c :: rest =>
    if isDigit c then
      (readMoreDigits isDigit rest).map fun (digits, rest) => (c :: digits, rest)
    else some ([], c :: rest)

/-- Digits, at least one, with single underscores between them. -/
def readDigits (isDigit : Char → Bool) : List Char → Option (List Char × List Char)
  | [] => none
  | c :: rest =>
    if isDigit c then
      (readMoreDigits isDigit rest).map fun (digits, rest) => (c :: digits, rest)
    else none

/-- A sign, if there is one: whether it is negative. -/
def readSign : List Char → Bool × List Char
  | '+' :: rest => (false, rest)
  | '-' :: rest => (true, rest)
  | cs => (false, cs)

/-- The digits of a decimal integer without sign: a zero stands alone. -/
def readDecimal : List Char → Option (List Char × List Char)
  | '0' :: rest => some (['0'], rest)
  | cs => readDigits Char.isDigit cs

/-- The number that digits denote. -/
def natOfDigits (base : Nat) (digits : List Char) : Nat :=
  digits.foldl (fun n c => n * base + (Json.hexValue? c).getD 0) 0

/-- An integer of 64 bits with sign. -/
def integerOf (negative : Bool) (n : Nat) : Option Toml :=
  if negative then if n ≤ Nat.pow 2 63 then some (.integer (-n)) else none
  else if n < Nat.pow 2 63 then some (.integer n) else none

/-- Digits of another base, behind its mark. -/
def readBase (base : Nat) (isDigit : Char → Bool) (cs : List Char) : Option (Toml × List Char) := do
  let (digits, rest) ← readDigits isDigit cs
  some (← integerOf false (natOfDigits base digits), rest)

def readInteger : List Char → Option (Toml × List Char)
  | '0' :: 'x' :: rest => readBase 16 isHexDigit rest
  | '0' :: 'o' :: rest => readBase 8 isOctalDigit rest
  | '0' :: 'b' :: rest => readBase 2 isBinaryDigit rest
  | cs => do
    let (negative, rest) := readSign cs
    let (digits, rest) ← readDecimal rest
    some (← integerOf negative (natOfDigits 10 digits), rest)

/-- The digits behind a point, if there is one. -/
def readFraction : List Char → Option (Option (List Char) × List Char)
  | '.' :: rest => (readDigits Char.isDigit rest).map fun (digits, rest) => (some digits, rest)
  | cs => some (none, cs)

/-- The digits of an exponent behind its sign. -/
def readExponentDigits (cs : List Char) : Option (Int × List Char) := do
  let (negative, rest) := readSign cs
  let (digits, rest) ← readDigits Char.isDigit rest
  let n : Int := natOfDigits 10 digits
  some (if negative then -n else n, rest)

def readExponent : List Char → Option (Option Int × List Char)
  | 'e' :: rest => (readExponentDigits rest).map fun (n, rest) => (some n, rest)
  | 'E' :: rest => (readExponentDigits rest).map fun (n, rest) => (some n, rest)
  | cs => some (none, cs)

/-- `significand · 10 ^ scale` is beyond every double. -/
def overflows (significand : Nat) (scale : Int) : Bool :=
  let size : Int := (Nat.repr significand).length + scale
  if significand = 0 || size < 300 then false
  else if 400 < size then true
  else
    let (num, den) :=
      if 0 ≤ scale then (significand * Nat.pow 10 scale.toNat, 1)
      else (significand, Nat.pow 10 (-scale).toNat)
    (Decimal.Magnitude.ofRatio num den).isNone

/-- The characters that a rest does not have any more. -/
def consumed (cs rest : List Char) : String := String.ofList (cs.take (cs.length - rest.length))

/-- A number with a fraction or an exponent. One that is too large has no value, unless it is
negative. -/
def readDecimalFloat (cs : List Char) : Option (Toml × List Char) := do
  let (negative, rest) := readSign cs
  let (whole, rest) ← readDecimal rest
  let (fraction, rest) ← readFraction rest
  let (exponent, rest) ← readExponent rest
  if fraction.isNone && exponent.isNone then none
  else
    let digits := fraction.getD []
    let significand := natOfDigits 10 (whole ++ digits)
    if !negative && overflows significand (exponent.getD 0 - digits.length) then none
    else some (.float (consumed cs rest), rest)

/-- Infinity, or what is not a number. -/
def readSpecialFloat (cs : List Char) : Option (Toml × List Char) :=
  match (readSign cs).2 with
  | 'i' :: 'n' :: 'f' :: rest => some (.float (consumed cs rest), rest)
  | 'n' :: 'a' :: 'n' :: rest => some (.float (consumed cs rest), rest)
  | _ => none

/-! ## Dates and times -/

/-- A number of exactly `n` digits. -/
def readFixed (n : Nat) (cs : List Char) : Option (Nat × List Char) :=
  let digits := cs.take n
  if digits.length = n && digits.all Char.isDigit then some (natOfDigits 10 digits, cs.drop n)
  else none

/-- A number of two digits between two bounds. -/
def readBetween (low high : Nat) (cs : List Char) : Option (Nat × List Char) := do
  let (n, rest) ← readFixed 2 cs
  if low ≤ n && n ≤ high then some (n, rest) else none

/-- What follows a character, if the text starts with it. -/
def readChar (c : Char) : List Char → Option (List Char)
  | [] => none
  | d :: rest => if d == c then some rest else none

def isLeapYear (year : Nat) : Bool := year % 4 == 0 && (year % 100 != 0 || year % 400 == 0)

def daysInMonth (year month : Nat) : Nat :=
  if month = 2 then if isLeapYear year then 29 else 28
  else if month = 4 || month = 6 || month = 9 || month = 11 then 30
  else 31

/-- What follows a date. -/
def readDate (cs : List Char) : Option (List Char) := do
  let (year, rest) ← readFixed 4 cs
  let (month, rest) ← readBetween 1 12 (← readChar '-' rest)
  let (day, rest) ← readBetween 1 31 (← readChar '-' rest)
  if day ≤ daysInMonth year month then some rest else none

/-- What follows a time of day; a minute may have a leap second. -/
def readTime (cs : List Char) : Option (List Char) := do
  let (_, rest) ← readBetween 0 23 cs
  let (_, rest) ← readBetween 0 59 (← readChar ':' rest)
  let (_, rest) ← readBetween 0 60 (← readChar ':' rest)
  match rest with
  | '.' :: rest =>
    match rest.span Char.isDigit with
    | ([], _) => none
    | (_, rest) => some rest
  | _ => some rest

/-- What follows an offset from universal time, if there is one. -/
def readOffset : List Char → Option (List Char)
  | 'Z' :: rest => some rest
  | 'z' :: rest => some rest
  | '+' :: rest => hours rest
  | '-' :: rest => hours rest
  | cs => some cs
where
  hours (cs : List Char) : Option (List Char) := do
    let (_, rest) ← readBetween 0 23 cs
    let (_, rest) ← readBetween 0 59 (← readChar ':' rest)
    some rest

/-- What follows the time behind a date, if there is one. -/
def readTimeBehind (cs : List Char) : Option (List Char) :=
  match cs with
  | c :: rest =>
    if c == 'T' || c == 't' || c == ' ' then
      match readTime rest with
      | some rest => readOffset rest
      | none => some cs
    else some cs
  | [] => some []

/-- A date, a time, or both. -/
def readDatetime (cs : List Char) : Option (Toml × List Char) :=
  match readDate cs with
  | some rest => (readTimeBehind rest).map fun rest => (.datetime (consumed cs rest), rest)
  | none => (readTime cs).map fun rest => (.datetime (consumed cs rest), rest)

/-- A date or a number. -/
def readNumber (cs : List Char) : Option (Toml × List Char) :=
  (readDatetime cs).or <| (readDecimalFloat cs).or <| (readSpecialFloat cs).or <| readInteger cs

/-! ## Strings -/

/-- The character with a code point, if there is one. -/
def charOfNat? (n : Nat) : Option Char :=
  if h : n.isValidChar then some (Char.ofNatAux n h) else none

/-- The character that `digits` hexadecimal digits denote. -/
def readCodePoint (digits : Nat) (cs : List Char) : Option (Char × List Char) :=
  let hex := cs.take digits
  if hex.length = digits && hex.all isHexDigit then
    (charOfNat? (natOfDigits 16 hex)).map (·, cs.drop digits)
  else none

/-- The character of an escape, behind the backslash. -/
def readEscape : List Char → Option (Char × List Char)
  | 'b' :: rest => some ('\x08', rest)
  | 't' :: rest => some ('\t', rest)
  | 'n' :: rest => some ('\n', rest)
  | 'f' :: rest => some ('\x0c', rest)
  | 'r' :: rest => some ('\r', rest)
  | '"' :: rest => some ('"', rest)
  | '\\' :: rest => some ('\\', rest)
  | 'u' :: rest => readCodePoint 4 rest
  | 'U' :: rest => readCodePoint 8 rest
  | _ => none

/-- A string on one line, behind its opening quote. -/
def readBasic : Nat → List Char → Option (List Char × List Char)
  | 0, _ => none
  | fuel + 1, cs =>
    match cs with
    | [] => none
    | '"' :: rest => some ([], rest)
    | '\\' :: rest => do
      let (c, rest) ← readEscape rest
      let (text, rest) ← readBasic fuel rest
      some (c :: text, rest)
    | c :: rest => do
      if !isText c then none
      else
        let (text, rest) ← readBasic fuel rest
        some (c :: text, rest)

/-- A literal string on one line, behind its opening quote. -/
def readLiteral : List Char → Option (List Char × List Char)
  | [] => none
  | '\'' :: rest => some ([], rest)
  | c :: rest =>
    if isText c then (readLiteral rest).map fun (text, rest) => (c :: text, rest) else none

/-- The quotes at the start of a text, as far as they can belong to the end of a string: at most two
of them are text, and three close it. -/
def closingQuotes (quote : Char) (cs : List Char) : Nat :=
  min 5 (cs.takeWhile (· == quote)).length

/-- What follows the blanks and line breaks behind a backslash at the end of a line; `none` if the
line goes on. -/
def readLineFold (cs : List Char) : Option (List Char) :=
  (readNewline (skipSpaces cs)).map skipAll
where
  skipAll : List Char → List Char
    | '\r' :: '\n' :: rest => skipAll rest
    | c :: rest => if c == '\n' || isSpace c then skipAll rest else c :: rest
    | [] => []

/-- A string on several lines, behind its opening quotes and the line break after them. -/
def readMultiline (quote : Char) : Nat → List Char → Option (List Char × List Char)
  | 0, _ => none
  | fuel + 1, cs =>
    match cs with
    | [] => none
    | c :: rest =>
      if c == quote then
        let quotes := closingQuotes quote cs
        if 3 ≤ quotes then some (List.replicate (quotes - 3) quote, cs.drop quotes)
        else (readMultiline quote fuel rest).map fun (text, rest) => (c :: text, rest)
      else if c == '\\' && quote == '"' then
        match readLineFold rest with
        | some rest => readMultiline quote fuel rest
        | none => do
          let (c, rest) ← readEscape rest
          let (text, rest) ← readMultiline quote fuel rest
          some (c :: text, rest)
      else
        match readNewline cs with
        | some rest => (readMultiline quote fuel rest).map fun (text, rest) => ('\n' :: text, rest)
        | none =>
          if isText c then
            (readMultiline quote fuel rest).map fun (text, rest) => (c :: text, rest)
          else none

/-- Drops the line break right behind the quotes that open a string of several lines. -/
def skipFirstNewline (cs : List Char) : List Char := (readNewline cs).getD cs

/-- A string of any of the four kinds. The fuel is enough because every step reads a character. -/
def readString (cs : List Char) : Option (List Char × List Char) :=
  match cs with
  | '"' :: '"' :: '"' :: rest => readMultiline '"' (rest.length + 1) (skipFirstNewline rest)
  | '\'' :: '\'' :: '\'' :: rest => readMultiline '\'' (rest.length + 1) (skipFirstNewline rest)
  | '"' :: rest => readBasic (rest.length + 1) rest
  | '\'' :: rest => readLiteral rest
  | _ => none

/-! ## Keys -/

def isBareKeyChar (c : Char) : Bool := c.isAlphanum || c == '_' || c == '-'

/-- One name: bare, or a string on one line. -/
def readName (cs : List Char) : Option (String × List Char) :=
  match cs with
  | '"' :: rest => (readBasic (rest.length + 1) rest).map fun (s, rest) => (String.ofList s, rest)
  | '\'' :: rest => (readLiteral rest).map fun (s, rest) => (String.ofList s, rest)
  | _ =>
    match cs.span isBareKeyChar with
    | ([], _) => none
    | (name, rest) => some (String.ofList name, rest)

/-- Names with dots between them, at most `room`, with spaces around each. -/
def readPath : Nat → List Char → Option (List String × List Char)
  | 0, _ => none
  | room + 1, cs => do
    let (name, rest) ← readName (skipSpaces cs)
    match skipSpaces rest with
    | '.' :: rest => (readPath room rest).map fun (path, rest) => (name :: path, rest)
    | rest => some ([name], rest)

end ModuleForge.Toml
