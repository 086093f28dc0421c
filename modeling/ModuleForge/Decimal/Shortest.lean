import ModuleForge.Decimal.Double

/-!
# Shortest decimal text of a double

The fewest significant digits that read back as the same double, and of those the nearest to it.

- `Magnitude.shortest`: the digits as a number, and the power of ten of the last one.
- `Double.text`: the text, positional while the point stands near the digits and with an exponent
  otherwise.
-/

namespace ModuleForge.Decimal

namespace Magnitude

/-- Twice the distance to the next magnitude below is one unit of the mantissa, or half of it at a
power of two. All of `below`, `value` and `above` count in quarters of `2 ^ exponent`: the ends of
the interval of numbers that round to the magnitude, and the magnitude itself. -/
def quarters (m : Magnitude) : Nat × Nat × Nat :=
  let value := 4 * m.mantissa
  let isPower := m.mantissa = Nat.pow 2 52 && -1074 < m.exponent
  (value - (if isPower then 1 else 2), value, value + 2)

/-- `10 ^ place` counted in quarters of `2 ^ exponent`, as a fraction. -/
def placeRatio (m : Magnitude) (place : Int) : Nat × Nat :=
  let e := m.exponent - 2
  let num := if 0 ≤ place then Nat.pow 10 place.toNat else 1
  let den := if 0 ≤ place then 1 else Nat.pow 10 (-place).toNat
  if 0 ≤ e then (num, den * Nat.pow 2 e.toNat) else (num * Nat.pow 2 (-e).toNat, den)

/-- The multiple of `10 ^ place` that is read back as the magnitude and is nearest to it, if there is
one. -/
def gridPoint? (m : Magnitude) (place : Int) : Option Nat :=
  let (num, den) := m.placeRatio place
  let (below, value, above) := m.quarters
  let inside (k : Nat) : Bool :=
    let x := k * num
    if m.mantissa % 2 = 0 then below * den ≤ x && x ≤ above * den
    else below * den < x && x < above * den
  let low := value * den / num
  let lowGap := value * den - low * num
  let highGap := (low + 1) * num - value * den
  match inside low && 0 < low, inside (low + 1) with
  | true, true => some (if lowGap < highGap || (lowGap = highGap && low % 2 = 0) then low else low + 1)
  | true, false => some low
  | false, true => some (low + 1)
  | false, false => none

/-- The first hit on the grids of the places `place`, `place - 1`, …. -/
def search (m : Magnitude) (place : Int) : Nat → Nat × Int
  | 0 => (m.mantissa, m.exponent)
  | tries + 1 =>
    match m.gridPoint? place with
    | some k => (k, place)
    | none => search m (place - 1) tries

/-- Drops the zeros at the end of a number of at most `places` digits. -/
def dropZeros : Nat → Nat → Int → Nat × Int
  | 0, n, place => (n, place)
  | places + 1, n, place =>
    if n ≠ 0 && n % 10 = 0 then dropZeros places (n / 10) (place + 1) else (n, place)

/-- **The fewest digits that read back**, with the power of ten of the last one. -/
def shortest (m : Magnitude) : Nat × Int :=
  if m.mantissa = 0 then (0, 0)
  else
    let (num, den) := m.ratio
    let size : Int := (num.log2 : Int) - (den.log2 : Int)
    let start := size * 30103 / 100000 + 1
    let (n, place) := search m start 22
    dropZeros 22 n place

end Magnitude

/-- **The text of a double.** With the point after `point` digits, the number is positional for
`-5 < point ≤ 16`, always with a point; otherwise it has one digit before the point and an exponent. -/
def Double.text (d : Double) : String :=
  let (n, place) := d.magnitude.shortest
  let digits := (Nat.repr n).toList
  let point : Int := digits.length + place
  let sign := if d.negative then "-" else ""
  let body : String :=
    if n = 0 then "0.0"
    else if 0 ≤ place && point ≤ 16 then
      String.ofList (digits ++ List.replicate place.toNat '0') ++ ".0"
    else if 0 < point && point ≤ 16 then
      String.ofList (digits.take point.toNat ++ '.' :: digits.drop point.toNat)
    else if -5 < point && point ≤ 0 then
      String.ofList ('0' :: '.' :: List.replicate (-point).toNat '0' ++ digits)
    else
      let power := toString (point - 1)
      match digits with
      | [d] => String.singleton d ++ "e" ++ power
      | d :: rest => String.singleton d ++ "." ++ String.ofList rest ++ "e" ++ power
      | [] => "0.0"
  sign ++ body

end ModuleForge.Decimal
