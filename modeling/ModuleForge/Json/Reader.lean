import ModuleForge.Json

/-!
# Reading JSON

`Json.parse` accepts exactly one value with blanks around it. Nesting has no limit here; whoever keeps
a value checks its depth (`Json.Decode`).

The readers take the rest of the text and answer the value and what follows it, or `none` if there is
no such value.
-/

namespace ModuleForge.Json

/-! ## Blanks and digits -/

def isBlank (c : Char) : Bool := c == ' ' || c == '\n' || c == '\t' || c == '\r'

def skipBlanks (cs : List Char) : List Char := cs.dropWhile isBlank

/-- The value of a hexadecimal digit. -/
def hexValue? (c : Char) : Option Nat :=
  if '0' ≤ c && c ≤ '9' then some (c.toNat - '0'.toNat)
  else if 'a' ≤ c && c ≤ 'f' then some (c.toNat - 'a'.toNat + 10)
  else if 'A' ≤ c && c ≤ 'F' then some (c.toNat - 'A'.toNat + 10)
  else none

/-! ## Numbers -/

/-- The largest integer that is kept exactly. -/
def maxInteger : Nat := Nat.pow 2 64 - 1

/-- Appends digits to a significand while it stays in range; answers also the digits left over. -/
def growSignificand (significand : Nat) : List Char → Nat × List Char
  | [] => (significand, [])
  | c :: rest =>
    let next := significand * 10 + (c.toNat - '0'.toNat)
    if next ≤ maxInteger then growSignificand next rest else (significand, c :: rest)

/-- The number of a literal, given its digits before the point, after the point and its exponent.
Digits beyond the range of the significand only scale it, and after the point they are dropped.
`none` if it is beyond every double. -/
def numberOf (negative : Bool) (whole : List Char) (fraction : Option (List Char))
    (exponent : Option Int) : Option Number :=
  let (significand, surplus) := growSignificand 0 whole
  let isInteger := fraction.isNone && exponent.isNone && surplus.isEmpty
  if isInteger && !negative then some (.integer significand)
  else if isInteger && 0 < significand && significand ≤ Nat.pow 2 63 then some (.integer (-significand))
  else
    let digits := fraction.getD []
    let (significand, dropped) := growSignificand significand digits
    let scale : Int := surplus.length - (digits.length - dropped.length : Nat)
    (Decimal.Double.ofDecimal negative significand (scale + exponent.getD 0)).map .double

/-- Digits, at least one. -/
def readDigits (cs : List Char) : Option (List Char × List Char) :=
  match cs.span Char.isDigit with
  | ([], _) => none
  | (digits, rest) => some (digits, rest)

/-- The digits before the point: no leading zero. -/
def readWhole (cs : List Char) : Option (List Char × List Char) := do
  let (digits, rest) ← readDigits cs
  match digits with
  | '0' :: _ :: _ => none
  | _ => some (digits, rest)

def readFraction : List Char → Option (Option (List Char) × List Char)
  | '.' :: rest => do
    let (digits, rest) ← readDigits rest
    some (some digits, rest)
  | cs => some (none, cs)

/-- The number that decimal digits denote. -/
def natOfDigits (digits : List Char) : Nat :=
  digits.foldl (fun n c => n * 10 + (c.toNat - '0'.toNat)) 0

def readSignedDigits : List Char → Option (Int × List Char)
  | '+' :: rest => (readDigits rest).map fun (digits, rest) => ((natOfDigits digits : Int), rest)
  | '-' :: rest => (readDigits rest).map fun (digits, rest) => (-(natOfDigits digits : Int), rest)
  | cs => (readDigits cs).map fun (digits, rest) => ((natOfDigits digits : Int), rest)

def readExponent : List Char → Option (Option Int × List Char)
  | 'e' :: rest => (readSignedDigits rest).map fun (n, rest) => (some n, rest)
  | 'E' :: rest => (readSignedDigits rest).map fun (n, rest) => (some n, rest)
  | cs => some (none, cs)

def readNumber (cs : List Char) : Option (Json × List Char) := do
  let (negative, rest) := match cs with
    | '-' :: rest => (true, rest)
    | _ => (false, cs)
  let (whole, rest) ← readWhole rest
  let (fraction, rest) ← readFraction rest
  let (exponent, rest) ← readExponent rest
  match numberOf negative whole fraction exponent with
  | some n => some (.number n, rest)
  | none => some (.unusable, rest)

/-! ## Strings -/

/-- The character of a pair of surrogates. -/
def surrogatePair (high low : Nat) : Char :=
  Char.ofNat (0x10000 + (high - 0xD800) * 0x400 + (low - 0xDC00))

def isHighSurrogate (n : Nat) : Bool := 0xD800 ≤ n && n ≤ 0xDBFF

def isLowSurrogate (n : Nat) : Bool := 0xDC00 ≤ n && n ≤ 0xDFFF

/-- Joins the code units of a string; `none` if a surrogate stands alone. -/
def joinUnits : List (Char ⊕ Nat) → Option (List Char)
  | [] => some []
  | .inl c :: rest => (joinUnits rest).map (c :: ·)
  | .inr high :: .inr low :: rest =>
    if isHighSurrogate high then
      if isLowSurrogate low then (joinUnits rest).map (surrogatePair high low :: ·) else none
    else if isLowSurrogate high then none
    else (joinUnits (.inr low :: rest)).map (Char.ofNat high :: ·)
  | .inr n :: rest =>
    if isHighSurrogate n || isLowSurrogate n then none
    else (joinUnits rest).map (Char.ofNat n :: ·)

/-- The character of an escape of one letter. -/
def escaped? : Char → Option Char
  | '"' => some '"'
  | '\\' => some '\\'
  | '/' => some '/'
  | 'b' => some '\x08'
  | 'f' => some '\x0c'
  | 'n' => some '\n'
  | 'r' => some '\r'
  | 't' => some '\t'
  | _ => none

/-- The units of a string up to its closing quote: characters, and the code units of `\uXXXX`. -/
def readUnits : List Char → Option (List (Char ⊕ Nat) × List Char)
  | [] => none
  | '"' :: rest => some ([], rest)
  | '\\' :: 'u' :: a :: b :: c :: d :: rest => do
    let unit := (((← hexValue? a) * 16 + (← hexValue? b)) * 16 + (← hexValue? c)) * 16 +
      (← hexValue? d)
    let (units, rest) ← readUnits rest
    some (.inr unit :: units, rest)
  | '\\' :: e :: rest => do
    let c ← escaped? e
    let (units, rest) ← readUnits rest
    some (.inl c :: units, rest)
  | c :: rest => do
    if c.toNat < 0x20 || c == '\\' then none
    else
      let (units, rest) ← readUnits rest
      some (.inl c :: units, rest)

/-- The text of a string after its opening quote, `none` inside for one that is no text. -/
def readText (cs : List Char) : Option (Option String × List Char) := do
  let (units, rest) ← readUnits cs
  some ((joinUnits units).map String.ofList, rest)

/-! ## Values -/

/-- What follows a word, if the text starts with it. -/
def readWord (word cs : List Char) : Option (List Char) :=
  if word.isPrefixOf cs then some (cs.drop word.length) else none

/-- The object of members, some of whose keys may be no text. -/
def objectOf (members : List (Option String × Json)) : Json :=
  match members.mapM fun (k, v) => k.map (·, v) with
  | some members => .object members
  | none => .unusable

mutual

/-- A value at the start of the text. -/
def readValue : Nat → List Char → Option (Json × List Char)
  | 0, _ => none
  | fuel + 1, cs =>
    match cs with
    | [] => none
    | 'n' :: _ => (readWord ['n', 'u', 'l', 'l'] cs).map (Json.null, ·)
    | 't' :: _ => (readWord ['t', 'r', 'u', 'e'] cs).map (Json.bool true, ·)
    | 'f' :: _ => (readWord ['f', 'a', 'l', 's', 'e'] cs).map (Json.bool false, ·)
    | '"' :: rest =>
      (readText rest).map fun (text, rest) => ((text.map Json.string).getD .unusable, rest)
    | '[' :: rest =>
      match skipBlanks rest with
      | ']' :: rest => some (.array [], rest)
      | rest => (readItems fuel rest).map fun (items, rest) => (.array items, rest)
    | '\x7b' :: rest =>
      match skipBlanks rest with
      | '\x7d' :: rest => some (.object [], rest)
      | rest => (readMembers fuel rest).map fun (members, rest) => (objectOf members, rest)
    | _ => readNumber cs

/-- The items of an array up to its closing bracket; no blank stands before the first. -/
def readItems : Nat → List Char → Option (List Json × List Char)
  | 0, _ => none
  | fuel + 1, cs =>
    match readValue fuel cs with
    | none => none
    | some (item, rest) =>
      match skipBlanks rest with
      | ']' :: rest => some ([item], rest)
      | ',' :: rest => (readItems fuel (skipBlanks rest)).map fun (items, rest) => (item :: items, rest)
      | _ => none

/-- The members of an object up to its closing brace; no blank stands before the first. -/
def readMembers : Nat → List Char → Option (List (Option String × Json) × List Char)
  | 0, _ => none
  | fuel + 1, cs =>
    match cs with
    | '"' :: rest =>
      match readText rest with
      | none => none
      | some (key, rest) =>
        match skipBlanks rest with
        | ':' :: rest =>
          match readValue fuel (skipBlanks rest) with
          | none => none
          | some (value, rest) =>
            match skipBlanks rest with
            | '\x7d' :: rest => some ([(key, value)], rest)
            | ',' :: rest =>
              (readMembers fuel (skipBlanks rest)).map fun (members, rest) =>
                ((key, value) :: members, rest)
            | _ => none
        | _ => none
    | _ => none

end

/-- **The value of a JSON text**: one value, with nothing but blanks around it. The fuel is enough
because every step reads at least one character. -/
def parse (text : String) : Option Json := do
  let cs := skipBlanks text.toList
  let (value, rest) ← readValue (2 * cs.length + 2) cs
  if (skipBlanks rest).isEmpty then some value else none

end ModuleForge.Json
