import IncludeMoves.Decimal.Binary64

/-!
# Shortest decimals

The shortest decimal of a binary number has the fewest digits among all that are nearer to it than
to its neighbours, and is the nearest one of those. `Binary64.shortest` finds it on the decimal
grids from coarse to fine; `Notation.render` lays out its digits.
-/

namespace IncludeMoves

/-- A positive decimal: `0.d₁d₂… * 10 ^ point`, its digits as one natural number. -/
structure Decimal where
  digits : Nat
  point : Int
  deriving DecidableEq, Repr, Inhabited

namespace Binary64

/-- The values that round to `x`, in quarters of its last place: from `4 m - 2` (or `- 1`, where the
numbers below lie twice as close) to `4 m + 2`, for a mantissa `m`. -/
def bounds (x : Binary64) : Nat × Nat :=
  let lower := if x.mantissa = normalMantissa ∧ minExponent < x.exponent then 1 else 2
  (4 * x.mantissa - lower, 4 * x.mantissa + 2)

/-- The least `k ≤ 400` with `den ≤ num * 10 ^ (k + 1)`: the zeros behind the point. -/
def leadingZeros (num den : Nat) : Nat :=
  ((List.range 400).find? fun k => den ≤ num * Nat.pow 10 (k + 1)).getD 0

/-- The place of the point: the least `p` with `num / den < 10 ^ p`. -/
def pointOf (num den : Nat) : Int :=
  if den ≤ num then ((Nat.toDigits 10 (num / den)).length : Int)
  else -(leadingZeros num den : Int)

/-- The decimals with `count` digits next to `x`, below and above, that round to it; the nearer one
first, in a tie the even one. -/
def candidates (x : Binary64) (count : Nat) : List Decimal :=
  -- With `unit` and `d`, quarters of the last place of `x` and points of the grid are integers.
  let point := pointOf x.num x.den
  let grid : Int := point - count
  let unit := Nat.pow 2 (x.exponent - 2).toNat * Nat.pow 10 (-grid).toNat
  let d := Nat.pow 2 (2 - x.exponent).toNat * Nat.pow 10 grid.toNat
  let value := 4 * x.mantissa * unit
  let (low, high) := x.bounds
  let even := x.mantissa % 2 = 0
  let below := value / d
  let above := below + 1
  let rounds (c : Nat) : Bool :=
    if even then low * unit ≤ c * d ∧ c * d ≤ high * unit
    else low * unit < c * d ∧ c * d < high * unit
  let belowFirst := value - below * d < above * d - value ∨
    (value - below * d = above * d - value ∧ below % 2 = 0)
  let both := if belowFirst then [below, above] else [above, below]
  (both.filter rounds).map fun c => ⟨c, grid + (Nat.toDigits 10 c).length⟩

/-- **The shortest decimal** of a positive number; seventeen digits always suffice. -/
def shortest (x : Binary64) : Decimal :=
  ((List.range 17).findSome? fun k => (x.candidates (k + 1)).head?).getD ⟨0, 0⟩

end Binary64

/-- How numbers are laid out: positionally if the first digit counts units of `10 ^ k` for a `k`
from `positionalFrom` up to but not with `positionalBelow`, else with an exponent. -/
structure Notation where
  positionalFrom : Int
  positionalBelow : Int
  deriving DecidableEq, Repr

namespace Notation

/-- The digits of a decimal without zeros at the end. -/
def significant (digits : Nat) : List Char :=
  ((Nat.toDigits 10 digits).reverse.dropWhile fun c => c = '0').reverse

/-- Digits with the point behind the first `point` of them and at least one digit on each side. -/
def positional (digits : List Char) (point : Int) : List Char :=
  if point ≤ 0 then ['0', '.'] ++ List.replicate (-point).toNat '0' ++ digits
  else
    let before := digits.take point.toNat
    let behind := digits.drop point.toNat
    before ++ List.replicate (point.toNat - before.length) '0' ++ '.' ::
      (if behind = [] then ['0'] else behind)

/-- Digits with an exponent, which always shows its sign. -/
def scientific (digits : List Char) (exponent : Int) : List Char :=
  let tail := digits.drop 1
  digits.take 1 ++ (if tail = [] then [] else '.' :: tail) ++
    ['e', if exponent < 0 then '-' else '+'] ++ Nat.toDigits 10 exponent.natAbs

/-- The text of a number. Zero is positional. -/
def render (n : Notation) (x : Binary64) : List Char :=
  if x.mantissa = 0 then ['0', '.', '0']
  else
    let decimal := x.shortest
    let digits := significant decimal.digits
    let exponent := decimal.point - 1
    if n.positionalFrom ≤ exponent ∧ exponent < n.positionalBelow then
      positional digits decimal.point
    else scientific digits exponent

end Notation

end IncludeMoves
