import IncludeMoves.Json.Scan
import IncludeMoves.Json.Value

/-!
# Numbers of a document

A number is a sign, digits, and maybe a fraction and an exponent. Its digits are read as one integer
of 64 bits; digits that do not fit are dropped, those in front of the point still counting as powers
of ten. A number without fraction and exponent that fits is an integer, all others are rounded to 53
bits.
-/

namespace IncludeMoves

namespace Json

/-- Whether a character is a decimal digit. -/
def isDigit (c : Char) : Bool := '0' ≤ c && c ≤ '9'

/-- The value of a decimal digit. -/
def digitValue (c : Char) : Nat := c.toNat - '0'.toNat

/-- The digits at the start of a text. -/
def digits (s : List Char) : List Char := s.takeWhile isDigit

/-- The text behind its digits. -/
def afterDigits (s : List Char) : List Char := s.dropWhile isDigit

theorem length_afterDigits_le (s : List Char) : (afterDigits s).length ≤ s.length :=
  (List.dropWhile_sublist isDigit).length_le

/-- `n` continued by as many of the digits as keep it below `limit`, and the digits that are
dropped. -/
def absorb (limit n : Nat) : List Char → Nat × List Char
  | [] => (n, [])
  | d :: ds =>
    if n * 10 + digitValue d < limit then absorb limit (n * 10 + digitValue d) ds else (n, d :: ds)

/-- What the digits of a number come to: an integer and a power of ten, and whether the number may
count as an integer. -/
structure Digits where
  value : Nat
  power : Int
  whole : Bool
  deriving DecidableEq, Repr

/-- The least number that is too large for an exponent, the 31st power of two. -/
def exponentLimit : Nat := 2147483648

/-- The least number that is too large for the digits, the 64th power of two. -/
def digitsLimit : Nat := 18446744073709551616

/-- The size of the least integer, the 63rd power of two. -/
def integerLimit : Nat := 9223372036854775808

/-- The digits in front of the point. Of several digits the first is not zero. -/
def readWhole : Reader Digits := fun s =>
  match s with
  | [] => .error (.atEnd .endInValue)
  | c :: r =>
    if !isDigit c then .error (.atStart .invalidNumber (c :: r))
    -- A zero has no other digit behind it.
    else if c = '0' ∧ digits r ≠ [] then .error (.atStart .invalidNumber r)
    else
      -- Digits beyond the limit count as zeros. The number is an integer only if there are none of them.
      let (value, dropped) := absorb digitsLimit 0 (c :: digits r)
      .ok (⟨value, dropped.length, dropped = []⟩,
        ⟨afterDigits r, Nat.lt_succ_of_le (length_afterDigits_le r)⟩)

/-- The fraction, if there is one. -/
def readFraction (d : Digits) (s : List Char) :
    Except Fault (Digits × Remainder s) :=
  match s with
  | '.' :: r =>
    match digits r with
    | [] =>
      match r with
      | [] => .error (.atEnd .endInValue)
      | _ :: _ => .error (.atStart .invalidNumber r)
    | ds =>
      let (value, dropped) := absorb digitsLimit d.value ds
      .ok (⟨value, d.power - (ds.length - dropped.length : Nat), false⟩,
        ⟨afterDigits r, Nat.le_succ_of_le (length_afterDigits_le r)⟩)
  | s => .ok (d, .all s)

/-- The sign of an exponent, and the text behind it. -/
def exponentSign (s : List Char) : Bool × List Char :=
  match s with
  | '+' :: r => (false, r)
  | '-' :: r => (true, r)
  | _ => (false, s)

theorem length_exponentSign_le (s : List Char) : (exponentSign s).2.length ≤ s.length := by
  unfold exponentSign
  split <;> simp

/-- The exponent, if there is one. One that is too large is refused, unless the number is zero or
comes to zero. -/
def readExponent (d : Digits) (s : List Char) :
    Except Fault (Digits × Remainder s) :=
  match s with
  | [] => .ok (d, .all [])
  | e :: r =>
    if e = 'e' ∨ e = 'E' then
      let (negative, q) := exponentSign r
      match q with
      | [] => .error (.atEnd .endInValue)
      | c :: _ =>
        if !isDigit c then .error (.atStart .invalidNumber q)
        else
          let (exponent, dropped) := absorb exponentLimit 0 (digits q)
          let rest : Remainder (e :: r) :=
            ⟨afterDigits (exponentSign r).2, Nat.le_succ_of_le
              (Nat.le_trans (length_afterDigits_le _) (length_exponentSign_le r))⟩
          if dropped = [] then
            .ok (⟨d.value, d.power + (if negative then -(exponent : Int) else exponent), false⟩,
              rest)
          -- So large an exponent does no harm to a number that comes to zero.
          else if d.value = 0 ∨ negative then .ok (⟨0, 0, false⟩, rest)
          else .error (.before .numberOutOfRange (dropped.drop 1 ++ rest.1))
    else .ok (d, .all (e :: r))

/-- The value of a number, unless it is out of range. A negative zero is no integer. -/
def Digits.toJson? (d : Digits) (negative : Bool) : Option Json :=
  if d.whole ∧ (!negative ∨ (0 < d.value ∧ d.value ≤ integerLimit)) then
    some (.integer (if negative then -(d.value : Int) else d.value))
  else (Binary64.ofDecimal d.value d.power).map (.real negative)

/-- The sign of a number, and the text behind it. -/
def numberSign (s : List Char) : Bool × List Char :=
  match s with
  | '-' :: r => (true, r)
  | _ => (false, s)

theorem length_numberSign_le (s : List Char) : (numberSign s).2.length ≤ s.length := by
  unfold numberSign
  split <;> simp

/-- **A number.** -/
def readNumber : Reader Json := fun s =>
  match readWhole (numberSign s).2 with
  | .error f => .error f
  | .ok (whole, r) =>
    match readFraction whole r.text with
    | .error f => .error f
    | .ok (decimal, ⟨q, hq⟩) =>
      match readExponent decimal q with
      | .error f => .error f
      | .ok (d, ⟨t, ht⟩) =>
        match d.toJson? (numberSign s).1 with
        | some v =>
          .ok (v, ⟨t, Nat.lt_of_le_of_lt (Nat.le_trans ht hq)
            (Nat.lt_of_lt_of_le r.shorter (length_numberSign_le s))⟩)
        | none => .error (.before .numberOutOfRange t)

end Json

end IncludeMoves
