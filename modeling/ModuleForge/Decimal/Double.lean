/-!
# Binary floating point in exact arithmetic

A finite double is a sign and a magnitude `mantissa · 2 ^ exponent`. Rounding and reading work on
natural numbers, so nothing depends on the machine's own arithmetic.

- `Magnitude.ofRatio`: the nearest magnitude of a fraction, a half going to the even mantissa.
- `Double.ofDecimal`: the double of `significand · 10 ^ scale`, rounding once for the significand and
  once for every power of ten it is scaled by.
-/

namespace ModuleForge.Decimal

/-- A nonnegative double `mantissa · 2 ^ exponent`. The mantissa has at most 53 bits and the exponent
is at least -1074; zero has the exponent 0. -/
structure Magnitude where
  mantissa : Nat
  exponent : Int
  deriving DecidableEq, Repr, Inhabited

namespace Magnitude

def zero : Magnitude := ⟨0, 0⟩

/-- The magnitude as a fraction: numerator and denominator. -/
def ratio (m : Magnitude) : Nat × Nat :=
  if 0 ≤ m.exponent then (m.mantissa * Nat.pow 2 m.exponent.toNat, 1)
  else (m.mantissa, Nat.pow 2 (-m.exponent).toNat)

/-- The fraction `num / den` divided by `2 ^ e`. -/
def scaleDown (num den : Nat) (e : Int) : Nat × Nat :=
  if 0 ≤ e then (num, den * Nat.pow 2 e.toNat) else (num * Nat.pow 2 (-e).toNat, den)

/-- The quotient rounded to the nearest natural number, a half to the even one. -/
def roundDiv (num den : Nat) : Nat :=
  let q := num / den
  let r := num % den
  if 2 * r < den then q
  else if den < 2 * r then q + 1
  else q + q % 2

/-- **Rounding goes to the nearest number**: it is off by half the divisor at most, and by exactly
that much only to an even number. -/
theorem roundDiv_nearest (num : Nat) {den : Nat} (hden : 0 < den) :
    2 * (roundDiv num den * den) ≤ 2 * num + den ∧ 2 * num ≤ 2 * (roundDiv num den * den) + den ∧
      (2 * (roundDiv num den * den) = 2 * num + den ∨ 2 * num = 2 * (roundDiv num den * den) + den →
        roundDiv num den % 2 = 0) := by
  have hnum : num / den * den + num % den = num := Nat.div_add_mod' num den
  have hlt : num % den < den := Nat.mod_lt num hden
  unfold roundDiv
  dsimp only
  split
  · omega
  · split
    · rw [Nat.add_one_mul (num / den)]
      omega
    · rcases Nat.mod_two_eq_zero_or_one (num / den) with hq | hq
      · rw [hq, Nat.add_zero]
        omega
      · rw [hq, Nat.add_one_mul (num / den)]
        omega

example : roundDiv 5 2 = 2 ∧ roundDiv 7 2 = 4 := by decide

/-- The exponent at which the fraction `num / den` has a mantissa of 53 bits, but not below -1074. -/
def exponentFor (num den : Nat) : Int :=
  let guess : Int := (num.log2 : Int) - (den.log2 : Int) - 53
  let wide (e : Int) : Bool :=
    let (n, d) := scaleDown num den e
    Nat.pow 2 53 * d ≤ n
  let e := if wide guess then guess + 1 else guess
  let e := if wide e then e + 1 else e
  max e (-1074)

/-- **The magnitude nearest to a fraction**, a half going to the even mantissa; `none` if it is too
large. -/
def ofRatio (num den : Nat) : Option Magnitude :=
  if num = 0 then some zero
  else
    let e := exponentFor num den
    let (n, d) := scaleDown num den e
    let m := roundDiv n d
    let (m, e) := if m = Nat.pow 2 53 then (Nat.pow 2 52, e + 1) else (m, e)
    if m = 0 then some zero
    else if e ≤ 971 then some ⟨m, e⟩
    else none

def ofNat (n : Nat) : Option Magnitude := ofRatio n 1

/-- The magnitude nearest to the product. -/
def mul (a b : Magnitude) : Option Magnitude :=
  let (an, ad) := a.ratio
  let (bn, bd) := b.ratio
  ofRatio (an * bn) (ad * bd)

/-- The magnitude nearest to the quotient, by a magnitude that is not zero. -/
def div (a b : Magnitude) : Option Magnitude :=
  let (an, ad) := a.ratio
  let (bn, bd) := b.ratio
  ofRatio (an * bd) (ad * bn)

/-- The largest power of ten below the largest double. -/
def maxPower : Nat := 308

/-- Divides by `10 ^ n` in steps of at most `10 ^ 308`. -/
def divPower (a : Magnitude) (n : Nat) : Option Magnitude := do
  if n ≤ maxPower then a.div (← ofNat (Nat.pow 10 n))
  else if a.mantissa = 0 then some zero
  else
    let a ← a.div (← ofNat (Nat.pow 10 maxPower))
    divPower a (n - maxPower)
termination_by n
decreasing_by
  have : 0 < maxPower := by decide
  omega

/-- Multiplies by `10 ^ n`; only zero can be scaled beyond `10 ^ 308`. -/
def mulPower (a : Magnitude) (n : Nat) : Option Magnitude := do
  if n ≤ maxPower then a.mul (← ofNat (Nat.pow 10 n))
  else if a.mantissa = 0 then some zero
  else none

end Magnitude

/-- A finite double. -/
structure Double where
  negative : Bool
  magnitude : Magnitude
  deriving DecidableEq, Repr, Inhabited

/-- The double of `significand · 10 ^ scale` with the given sign; `none` if it is too large. -/
def Double.ofDecimal (negative : Bool) (significand : Nat) (scale : Int) : Option Double := do
  let m ← Magnitude.ofNat significand
  let m ← if 0 ≤ scale then m.mulPower scale.toNat else m.divPower (-scale).toNat
  some ⟨negative, m⟩

end ModuleForge.Decimal
