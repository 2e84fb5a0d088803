import IncludeMoves.Json.Fault

/-!
# Readers of the parts of a document

A reader takes a text to what it has read and to the rest of the text, which is shorter, or to a
fault. Here are the parts that hold no values: blanks, fixed words, and strings with their escapes.
-/

namespace IncludeMoves

namespace Json

/-- What a reader leaves of the text `s`: less than the whole. The bound stands beside the text, so that
a reader which calls another one ends for no other reason than this. -/
structure Rest (s : List Char) where
  text : List Char
  shorter : text.length < s.length

/-- What is left of a text is left of a longer one. -/
def Rest.widen {r s : List Char} (x : Rest r) (h : r.length ≤ s.length) : Rest s :=
  ⟨x.text, Nat.lt_of_lt_of_le x.shorter h⟩

/-- What is left when the first character has been read. -/
def Rest.tail (c : Char) (r : List Char) : Rest (c :: r) :=
  ⟨r, Nat.lt_succ_self _⟩

/-- What is left of a text is left of the text with one character more in front. -/
def Rest.cons {r : List Char} (c : Char) (x : Rest r) : Rest (c :: r) :=
  x.widen (Nat.le_succ _)

/-- What is left of the text `s` by a reader that may take nothing of it. -/
abbrev Remainder (s : List Char) := { r : List Char // r.length ≤ s.length }

/-- Nothing has been taken. -/
def Remainder.all (s : List Char) : Remainder s :=
  ⟨s, Nat.le_refl _⟩

/-- **A reader** of values of one type. -/
abbrev Reader (α : Type) := (s : List Char) → Except Fault (α × Rest s)

/-- The blanks between the parts of a document. -/
def isBlank (c : Char) : Bool :=
  c == ' ' || c == '\t' || c == '\n' || c == '\r'

/-- The text behind its blanks. -/
def skipBlanks (s : List Char) : List Char :=
  s.dropWhile isBlank

theorem length_skipBlanks_le (s : List Char) : (skipBlanks s).length ≤ s.length :=
  (List.dropWhile_sublist isBlank).length_le

/-- What follows the characters of `word`, which have to come next. A fault is placed at the first
character that differs. -/
def expect : (word s : List Char) → Except Fault (Remainder s)
  | [], s => .ok (.all s)
  | _ :: _, [] => .error (.atEnd .endInValue)
  | w :: ws, c :: r =>
    if c = w then
      match expect ws r with
      | .ok ⟨q, h⟩ => .ok ⟨q, Nat.le_succ_of_le h⟩
      | .error f => .error f
    else .error (.atStart .expectedIdent (c :: r))

/-! ### Strings -/

/-- The value of a hexadecimal digit. -/
def hexDigit? (c : Char) : Option Nat :=
  if '0' ≤ c ∧ c ≤ '9' then some (c.toNat - '0'.toNat)
  else if 'a' ≤ c ∧ c ≤ 'f' then some (c.toNat - 'a'.toNat + 10)
  else if 'A' ≤ c ∧ c ≤ 'F' then some (c.toNat - 'A'.toNat + 10)
  else none

/-- Four hexadecimal digits. They are looked for in the next four bytes, whatever those are, so that the
fault of a text that is cut off depends on its bytes and not on its characters. -/
def readHex : Reader Nat := fun s =>
  match s with
  | a :: b :: c :: d :: r =>
    -- All four are looked at before any of them is refused.
    match hexDigit? a, hexDigit? b, hexDigit? c, hexDigit? d with
    | some a, some b, some c, some d =>
      .ok (((a * 16 + b) * 16 + c) * 16 + d, ⟨r, by simp only [List.length_cons]; omega⟩)
    | _, _, _, _ => .error ⟨.invalidEscape, byteSize s - 4⟩
  | _ =>
    if byteSize s < 4 then .error (.atEnd .endInString)
    else .error ⟨.invalidEscape, byteSize s - 4⟩

/-- Whether a unit is the first half of a surrogate pair. -/
def isHighSurrogate (n : Nat) : Bool := 0xD800 ≤ n && n ≤ 0xDBFF

/-- Whether a unit is the second half of a surrogate pair. -/
def isLowSurrogate (n : Nat) : Bool := 0xDC00 ≤ n && n ≤ 0xDFFF

/-- The character behind `\u`: one unit, or two that are a surrogate pair. -/
def readUnit : Reader Char := fun s =>
  match readHex s with
  | .error f => .error f
  | .ok (n, r) =>
    -- The second half of a pair cannot stand alone.
    if isLowSurrogate n then .error (.before .loneSurrogate r.text)
    else if isHighSurrogate n then
      match hr : r.text with
      | [] => .error (.atEnd .endInString)
      | '\\' :: [] => .error (.atEnd .endInString)
      | '\\' :: 'u' :: q =>
        match readHex q with
        | .error f => .error f
        | .ok (m, t) =>
          if isLowSurrogate m then
            .ok (Char.ofNat (0x10000 + (n - 0xD800) * 0x400 + (m - 0xDC00)),
              t.widen (by have := r.shorter; simp only [hr, List.length_cons] at this; omega))
          else .error (.before .loneSurrogate t.text)
      -- A backslash with another letter behind it is taken before the pair is given up.
      | '\\' :: q => .error (.atStart .brokenSurrogatePair q)
      | q => .error (.atStart .brokenSurrogatePair q)
    else .ok (Char.ofNat n, r)

/-- The character that a single letter behind a backslash stands for. -/
def shortEscape? : Char → Option Char
  | '"' => some '"'
  | '\\' => some '\\'
  | '/' => some '/'
  | 'b' => some '\x08'
  | 'f' => some '\x0c'
  | 'n' => some '\n'
  | 'r' => some '\r'
  | 't' => some '\t'
  | _ => none

/-- The character behind a backslash. -/
def readEscape : Reader Char := fun s =>
  match s with
  | [] => .error (.atEnd .endInString)
  | c :: r =>
    if c = 'u' then
      match readUnit r with
      | .ok (x, q) => .ok (x, q.cons c)
      | .error f => .error f
    else
      match shortEscape? c with
      | some x => .ok (x, .tail c r)
      | none => .error (.atStart .invalidEscape (c :: r))

/-- The rest of a string, behind its opening quote, after the characters already `found`, the last
one first. -/
def readStringFrom (found : List Char) (s : List Char) : Except Fault (String × Rest s) :=
  match s with
  | [] => .error (.atEnd .endInString)
  | c :: r =>
    if c = '"' then .ok (String.ofList found.reverse, .tail c r)
    else if c = '\\' then
      match readEscape r with
      | .error f => .error f
      | .ok (x, q) =>
        match readStringFrom (x :: found) q.text with
        | .ok (str, t) =>
          .ok (str, t.widen (by have := q.shorter; simp only [List.length_cons]; omega))
        | .error f => .error f
    else if c.toNat < 0x20 then .error (.atStart .controlCharacter (c :: r))
    else
      match readStringFrom (c :: found) r with
      | .ok (str, t) => .ok (str, t.cons c)
      | .error f => .error f
termination_by s.length
decreasing_by
  · have := q.shorter; simp only [List.length_cons]; omega
  · simp

/-- A string, behind its opening quote. -/
def readString : Reader String :=
  readStringFrom []

end Json

end IncludeMoves
