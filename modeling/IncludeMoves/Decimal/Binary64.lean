/-!
# Numbers with 53 significant bits

The nonnegative finite numbers of the 64-bit binary format, as exact values: a mantissa below
`2 ^ 53` times a power of two. Every operation takes the exact quotient and rounds it once, to the
nearest such number and in a tie to the even mantissa.
-/

namespace IncludeMoves

/-- A quotient rounded to the nearest integer, a half to the even one. -/
def roundQuotient (num den : Nat) : Nat :=
  let q := num / den
  let twice := 2 * (num % den)
  if den < twice ∨ (den = twice ∧ q % 2 = 1) then q + 1 else q

/-- **A number of the format**: `mantissa * 2 ^ exponent`, the mantissa as large as it can be while
the exponent is not below `-1074`. -/
structure Binary64 where
  mantissa : Nat
  exponent : Int
  deriving DecidableEq, Repr, Inhabited

namespace Binary64

/-- The least number that is too large for a mantissa, the 53rd power of two. -/
def mantissaLimit : Nat := 9007199254740992

/-- The least mantissa of a number that is not close to zero, the 52nd power of two. -/
def normalMantissa : Nat := 4503599627370496

/-- The least exponent. -/
def minExponent : Int := -1074

/-- The greatest exponent. -/
def maxExponent : Int := 971

/-- Zero. -/
def zero : Binary64 := ⟨0, minExponent⟩

/-- The number as a quotient of naturals. -/
def num (x : Binary64) : Nat := x.mantissa * Nat.pow 2 x.exponent.toNat

/-- The denominator that belongs to `num`. -/
def den (x : Binary64) : Nat := Nat.pow 2 (-x.exponent).toNat

/-- The number nearest to `n / d`, unless that is beyond the format. -/
def ofQuotient (n d : Nat) : Option Binary64 :=
  if n = 0 then some zero
  else
    -- At `near` the scaled quotient has 53 or 54 bits; if it has 54, the next exponent is right.
    let near : Int := (n.log2 : Int) - (d.log2 : Int) - 53
    let scaled (e : Int) : Nat × Nat := (n * Nat.pow 2 (-e).toNat, d * Nat.pow 2 e.toNat)
    let exact := if (scaled near).1 / (scaled near).2 < mantissaLimit then near else near + 1
    let e := max minExponent exact
    let m := roundQuotient (scaled e).1 (scaled e).2
    -- A mantissa that is rounded up to its limit is half of that one exponent higher.
    let rounded : Binary64 := if m = mantissaLimit then ⟨normalMantissa, e + 1⟩ else ⟨m, e⟩
    if rounded.exponent ≤ maxExponent then some rounded else none

/-- The number nearest to a natural number. -/
def ofNat (n : Nat) : Option Binary64 :=
  ofQuotient n 1

/-- The rounded product. -/
def mul (x y : Binary64) : Option Binary64 :=
  ofQuotient (x.num * y.num) (x.den * y.den)

/-- The rounded quotient. -/
def div (x y : Binary64) : Option Binary64 :=
  ofQuotient (x.num * y.den) (x.den * y.num)

/-- The greatest power of ten of the format. -/
def maxPower : Nat := 308

/-- The number nearest to a power of ten. -/
def powerOfTen (k : Nat) : Option Binary64 :=
  ofNat (Nat.pow 10 k)

/-- `x` divided `times` times by the greatest power of ten. -/
def divMaxPower (x : Binary64) : Nat → Option Binary64
  | 0 => some x
  | times + 1 =>
    if x.mantissa = 0 then some x
    else ((powerOfTen maxPower).bind x.div).bind fun y => y.divMaxPower times

/-- `x / 10 ^ k`, in divisions by powers of ten of the format that round one after the other. -/
def divPowerOfTen (x : Binary64) (k : Nat) : Option Binary64 :=
  let times := (k - 1) / maxPower
  (x.divMaxPower times).bind fun y => (powerOfTen (k - times * maxPower)).bind y.div

/-- `x * 10 ^ k`, rounded, unless it is beyond the format. -/
def mulPowerOfTen (x : Binary64) (k : Nat) : Option Binary64 :=
  if k ≤ maxPower then (powerOfTen k).bind x.mul
  else if x.mantissa = 0 then some x
  else none

/-- The number for `digits * 10 ^ power`: the digits are rounded first, then the scaled value. Because
of the two roundings it need not be the number of the format that is nearest to the decimal. -/
def ofDecimal (digits : Nat) (power : Int) : Option Binary64 :=
  (ofNat digits).bind fun x =>
    if 0 ≤ power then x.mulPowerOfTen power.toNat else x.divPowerOfTen (-power).toNat

end Binary64

end IncludeMoves
