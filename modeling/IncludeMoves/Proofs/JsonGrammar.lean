import IncludeMoves.Json.Reader

/-!
# The grammar of JSON documents

What the texts of the format are and what they stand for, said without a reader: `Spells depth s v`
relates a text to a value in which lists and objects are nested at most `depth` deep. A value is made of
lexemes (fixed words, numbers, strings) and of sequences of items between commas; blanks may stand
around every item. A document is a value between blanks.

* `Json.SpellsChar`, `Json.SpellsString` — a character of a string, as itself or by an escape;
* `Json.Numeral` — a number as it is written, and its value;
* `Json.SpellsSequence` — items between commas, for lists and objects;
* `Json.Spells`, `Json.IsDocument` — values and documents.

A number is an integer if it is written as one and fits into 64 bits. All others are rounded, and those
that are too large have no value, so a text with one of them is no document here.
-/

namespace IncludeMoves

namespace Json

/-- A text of blanks. -/
def AreBlanks (s : List Char) : Prop :=
  ∀ c ∈ s, isBlank c = true

/-! ### Strings -/

/-- A hexadecimal digit, in lower or upper case. It is said by the digit that is written for the number,
not by ranges of characters. -/
def IsHexDigit (c : Char) (n : Nat) : Prop :=
  n < 16 ∧ (c = n.digitChar ∨ c = n.digitChar.toUpper)

/-- **The short escapes**: the letter behind the backslash, and the character that it stands for. -/
def shortEscapes : List (Char × Char) :=
  [('"', '"'), ('\\', '\\'), ('/', '/'), ('b', '\x08'), ('f', '\x0c'), ('n', '\n'), ('r', '\r'),
    ('t', '\t')]

/-- Four hexadecimal digits. -/
inductive SpellsUnit : List Char → Nat → Prop
  | mk {a b c d : Char} {i j k l : Nat} : IsHexDigit a i → IsHexDigit b j → IsHexDigit c k →
      IsHexDigit d l → SpellsUnit [a, b, c, d] (((i * 16 + j) * 16 + k) * 16 + l)

/-- What stands behind `\u`: one unit that is no half of a surrogate pair, or both halves. The second
half has an escape of its own in front. -/
inductive SpellsCodePoint : List Char → Char → Prop
  | one {ds : List Char} {n : Nat} : SpellsUnit ds n → ¬(0xD800 ≤ n ∧ n ≤ 0xDFFF) →
      SpellsCodePoint ds (Char.ofNat n)
  | pair {ds es : List Char} {n m : Nat} : SpellsUnit ds n → SpellsUnit es m →
      0xD800 ≤ n → n ≤ 0xDBFF → 0xDC00 ≤ m → m ≤ 0xDFFF →
      SpellsCodePoint (ds ++ '\\' :: 'u' :: es)
        (Char.ofNat (0x10000 + (n - 0xD800) * 0x400 + (m - 0xDC00)))

/-- **A character of a string**: as itself, by a short escape, or by its number. Many characters can be
written in all of these ways. -/
inductive SpellsChar : List Char → Char → Prop
  | plain {c : Char} : c ≠ '"' → c ≠ '\\' → 0x20 ≤ c.toNat → SpellsChar [c] c
  | short {e c : Char} : (e, c) ∈ shortEscapes → SpellsChar ['\\', e] c
  | number {ds : List Char} {c : Char} : SpellsCodePoint ds c → SpellsChar ('\\' :: 'u' :: ds) c

/-- The characters of a string, one after the other. -/
inductive SpellsText : List Char → List Char → Prop
  | nil : SpellsText [] []
  | cons {e body cs : List Char} {c : Char} : SpellsChar e c → SpellsText body cs →
      SpellsText (e ++ body) (c :: cs)

/-- **A string** between its quotes. -/
inductive SpellsString : List Char → String → Prop
  | mk {body cs : List Char} : SpellsText body cs →
      SpellsString ('"' :: (body ++ ['"'])) (String.ofList cs)

/-! ### Numbers -/

/-- A text of decimal digits. -/
def AreDigits (s : List Char) : Prop :=
  ∀ c ∈ s, isDigit c = true

/-- The number that decimal digits behind the number `n` come to. -/
def decimalFrom (n : Nat) (ds : List Char) : Nat :=
  ds.foldl (fun n d => n * 10 + digitValue d) n

/-- The number of decimal digits. -/
def decimal (ds : List Char) : Nat :=
  decimalFrom 0 ds

/-- The exponent of a number, as it is written. -/
structure Exponent where
  mark : Char
  sign : Option Char
  digits : List Char

/-- **A number, as it is written.** No fraction means that there is no point either. Different numerals
can have one value, so the value is a function of the numeral and not the other way round. -/
structure Numeral where
  negative : Bool
  whole : List Char
  fraction : List Char
  exponent : Option Exponent

namespace Exponent

/-- The exponent with its mark. -/
def text (x : Exponent) : List Char :=
  x.mark :: (x.sign.toList ++ x.digits)

/-- Whether the exponent is negative. -/
def isNegative (x : Exponent) : Bool :=
  x.sign == some '-'

/-- The exponent of a number, if it has one. -/
def text? (x : Option Exponent) : List Char :=
  (x.map text).getD []

/-- The exponent as an integer. -/
def value (x : Exponent) : Int :=
  if x.isNegative then -(decimal x.digits : Int) else decimal x.digits

/-- A mark, a sign or none, and digits. -/
structure IsWritten (x : Exponent) : Prop where
  mark : x.mark = 'e' ∨ x.mark = 'E'
  sign : ∀ c, x.sign = some c → c = '+' ∨ c = '-'
  digits : AreDigits x.digits
  digits_ne_nil : x.digits ≠ []

end Exponent

namespace Numeral

/-- The sign of a number. -/
def signText (negative : Bool) : List Char :=
  if negative then ['-'] else []

/-- The fraction with its point. -/
def fractionText (ds : List Char) : List Char :=
  if ds = [] then [] else '.' :: ds

/-- The number with all its parts. -/
def text (n : Numeral) : List Char :=
  signText n.negative ++ (n.whole ++ (fractionText n.fraction ++ Exponent.text? n.exponent))

/-- Digits in front of the point: there are some, and no superfluous zero. -/
structure IsWhole (ds : List Char) : Prop where
  digits : AreDigits ds
  ne_nil : ds ≠ []
  no_leading_zero : ds.head? = some '0' → ds = ['0']

/-- All parts are written as they have to be. -/
structure IsWritten (n : Numeral) : Prop where
  whole : IsWhole n.whole
  fraction : AreDigits n.fraction
  exponent : ∀ x, n.exponent = some x → x.IsWritten

/-- A number that is written as an integer and fits into 64 bits. There is no negative zero. -/
def IsInteger (n : Numeral) : Prop :=
  n.fraction = [] ∧ n.exponent = none ∧
    if n.negative then 0 < decimal n.whole ∧ decimal n.whole ≤ integerLimit
    else decimal n.whole < digitsLimit

instance (n : Numeral) : Decidable n.IsInteger :=
  inferInstanceAs (Decidable (_ ∧ n.exponent = none ∧ _))

/-- The number as an integer. -/
def integer (n : Numeral) : Int :=
  if n.negative then -(decimal n.whole : Int) else decimal n.whole

/-- The number without its sign, rounded, unless it is too large. Of the digits as many count as fit
into 64 bits; those that are dropped in front of the point are powers of ten. -/
def magnitude? (n : Numeral) : Option Binary64 :=
  let whole := absorb digitsLimit 0 n.whole
  let all := absorb digitsLimit whole.1 n.fraction
  let power : Int := (whole.2.length : Int) - (n.fraction.length - all.2.length : Nat)
  match n.exponent with
  | none => Binary64.ofDecimal all.1 power
  | some x =>
    if decimal x.digits < exponentLimit then Binary64.ofDecimal all.1 (power + x.value)
    -- So large an exponent does no harm to a number that comes to zero.
    else if all.1 = 0 ∨ x.isNegative then Binary64.ofDecimal 0 0
    else none

/-- **The value of a number**, unless it is out of range. -/
def value? (n : Numeral) : Option Json :=
  if n.IsInteger then some (.integer n.integer) else n.magnitude?.map (.real n.negative)

end Numeral

/-! ### Values -/

/-- Items between commas, each between blanks. -/
inductive SpellsItems {α : Type} (item : List Char → α → Prop) : List Char → List α → Prop
  | last {before s after : List Char} {x : α} : AreBlanks before → item s x → AreBlanks after →
      SpellsItems item (before ++ s ++ after) [x]
  | more {before s after rest : List Char} {x : α} {xs : List α} : AreBlanks before → item s x →
      AreBlanks after → SpellsItems item rest xs →
      SpellsItems item (before ++ s ++ after ++ ',' :: rest) (x :: xs)

/-- **What stands between the brackets** of a list or an object: items, or blanks. It is the same for
both, with members as the items of an object. -/
inductive SpellsSequence {α : Type} (item : List Char → α → Prop) : List Char → List α → Prop
  | empty {s : List Char} : AreBlanks s → SpellsSequence item s []
  | items {s : List Char} {xs : List α} : SpellsItems item s xs → SpellsSequence item s xs

/-- A member of an object: a name, a colon and a value, with blanks around the colon. -/
inductive SpellsMember (value : List Char → Json → Prop) : List Char → String × Json → Prop
  | mk {name before after s : List Char} {str : String} {v : Json} : SpellsString name str →
      AreBlanks before → AreBlanks after → value s v →
      SpellsMember value (name ++ before ++ ':' :: (after ++ s)) (str, v)

/-- **A value**, with lists and objects nested at most so deep. In the last two rules `value` stands for
the relation itself, one level further in. -/
inductive Spells : Nat → List Char → Json → Prop
  | null {depth : Nat} : Spells depth "null".toList .null
  | true {depth : Nat} : Spells depth "true".toList (.bool Bool.true)
  | false {depth : Nat} : Spells depth "false".toList (.bool Bool.false)
  | number {depth : Nat} {n : Numeral} {v : Json} : n.IsWritten → n.value? = some v →
      Spells depth n.text v
  | string {depth : Nat} {s : List Char} {str : String} : SpellsString s str →
      Spells depth s (.string str)
  | array {depth : Nat} {value : List Char → Json → Prop} {body : List Char} {vs : List Json} :
      (∀ s v, value s v → Spells depth s v) → SpellsSequence value body vs →
      Spells (depth + 1) ('[' :: (body ++ [']'])) (.array vs)
  | object {depth : Nat} {value : List Char → Json → Prop} {body : List Char}
      {ms : List (String × Json)} :
      (∀ s v, value s v → Spells depth s v) → SpellsSequence (SpellsMember value) body ms →
      Spells (depth + 1) ('\x7b' :: (body ++ ['\x7d'])) (.object ms)

/-- **A document and its value**: a value between blanks, not nested too deeply. Nothing is said here of
how it is read. -/
def IsDocument (text : String) (v : Json) : Prop :=
  ∃ before s after, AreBlanks before ∧ Spells maxDepth s v ∧ AreBlanks after ∧
    text.toList = before ++ s ++ after

end Json

end IncludeMoves
