import IncludeMoves.Json.Number

/-!
# Reading JSON documents

`Json.parse` reads a whole document: one value between blanks. Lists and objects may be nested to
`maxDepth`. A list and an object differ in their brackets and in what stands between the commas, so
both are read by `readSequence`.
-/

namespace IncludeMoves

namespace Json

/-- How many lists and objects may stand in each other. Documents that go deeper are refused, whatever
they contain. -/
def maxDepth : Nat := 127

/-- The kind of a sequence: its closing bracket, and what is missing when it breaks off or goes on
without a comma. -/
structure Brackets where
  closing : Char
  cut : Cause
  noComma : Cause

/-- The brackets of a list. -/
def Brackets.list : Brackets := ⟨']', .endInList, .expectedCommaOrBracket⟩

/-- The brackets of an object. -/
def Brackets.object : Brackets := ⟨'\x7d', .endInObject, .expectedCommaOrBrace⟩

/-- The rest of a sequence behind one of its items, after the items already `found`, the last one
first. -/
def readItems {α : Type} (b : Brackets) (item : Reader α) (found : List α) (s : List Char) :
    Except Fault (List α × Rest s) :=
  match hs : skipBlanks s with
  | [] => .error (.atEnd b.cut)
  | c :: r =>
    have hle : r.length + 1 ≤ s.length := by
      have := length_skipBlanks_le s
      simpa [hs] using this
    if c = b.closing then .ok (found.reverse, ⟨r, hle⟩)
    else if c = ',' then
      match hr : skipBlanks r with
      | [] => .error (.atEnd .endInValue)
      | d :: q =>
        have hle' : (d :: q).length ≤ r.length := by
          have := length_skipBlanks_le r
          simpa [hr] using this
        -- A comma has to have another item behind it.
        if d = b.closing then .error (.atStart .trailingComma (d :: q))
        else
          match item (d :: q) with
          | .error f => .error f
          | .ok (x, t) =>
            match readItems b item (x :: found) t.text with
            | .error f => .error f
            | .ok (xs, u) => .ok (xs, u.widen (by have := t.shorter; omega))
    else .error (.atStart b.noComma (c :: r))
termination_by s.length
decreasing_by have := t.shorter; omega

/-- A sequence of items between commas, behind its opening bracket. -/
def readSequence {α : Type} (b : Brackets) (item : Reader α) : Reader (List α) := fun s =>
  match hs : skipBlanks s with
  | [] => .error (.atEnd b.cut)
  | c :: r =>
    have hle : (c :: r).length ≤ s.length := by
      have := length_skipBlanks_le s
      simpa [hs] using this
    if c = b.closing then .ok ([], ⟨r, hle⟩)
    else
      match item (c :: r) with
      | .error f => .error f
      | .ok (x, t) =>
        match readItems b item [x] t.text with
        | .error f => .error f
        | .ok (xs, u) => .ok (xs, u.widen (by have := t.shorter; omega))

/-- A member of an object: a name, a colon and a value. -/
def readMember (value : Reader Json) : Reader (String × Json) := fun s =>
  match s with
  -- What should be a name is reported as such, whatever stands there instead.
  | [] => .error (.atEnd .endInObject)
  | c :: r =>
    if c = '"' then
      match readString r with
      | .error f => .error f
      | .ok (name, q) =>
        match hq : skipBlanks q.text with
        | [] => .error (.atEnd .endInObject)
        | d :: t =>
          if d = ':' then
            match value t with
            | .error f => .error f
            | .ok (v, u) =>
              .ok ((name, v), u.widen (by
                have hq' := length_skipBlanks_le q.text
                have := q.shorter
                simp only [hq, List.length_cons] at hq' ⊢
                omega))
          else .error (.atStart .expectedColon (d :: t))
    else .error (.atStart .keyNotString (c :: r))

/-- A value that is a fixed word, behind its first character. -/
def readWord (word : List Char) (v : Json) (c : Char) (r : List Char) :
    Except Fault (Json × Rest (c :: r)) :=
  match expect word r with
  | .error f => .error f
  | .ok ⟨q, h⟩ => .ok (v, ⟨q, Nat.lt_succ_of_le h⟩)

/-- A list or object, behind its opening bracket `c`, as a value. -/
def readNested {α : Type} (b : Brackets) (item : Reader α) (make : List α → Json) (c : Char)
    (r : List Char) : Except Fault (Json × Rest (c :: r)) :=
  match readSequence b item r with
  | .error f => .error f
  | .ok (xs, q) => .ok (make xs, q.cons c)

/-- A value that starts with the character `c`. The reader `nested` is used for what stands in lists
and objects; there is none when they would be nested too deeply. -/
def readValueAt (nested : Option (Reader Json)) (c : Char) (r : List Char) :
    Except Fault (Json × Rest (c :: r)) :=
  if c = 'n' then readWord "ull".toList .null c r
  else if c = 't' then readWord "rue".toList (.bool true) c r
  else if c = 'f' then readWord "alse".toList (.bool false) c r
  else if c = '"' then
    match readString r with
    | .error f => .error f
    | .ok (str, q) => .ok (.string str, q.cons c)
  -- The sign belongs to the number.
  else if c = '-' ∨ isDigit c then readNumber (c :: r)
  else if c = '[' then
    match nested with
    | none => .error (.atStart .tooDeep (c :: r))
    | some value => readNested .list value .array c r
  else if c = '\x7b' then
    match nested with
    | none => .error (.atStart .tooDeep (c :: r))
    | some value => readNested .object (readMember value) .object c r
  else .error (.atStart .expectedValue (c :: r))

/-- A value behind blanks. -/
def readValueWith (nested : Option (Reader Json)) : Reader Json := fun s =>
  match hs : skipBlanks s with
  | [] => .error (.atEnd .endInValue)
  | c :: r =>
    match readValueAt nested c r with
    | .error f => .error f
    | .ok (v, q) => .ok (v, q.widen (by
        have := length_skipBlanks_le s
        simpa [hs] using this))

/-- **A value** in which lists and objects are nested at most `depth` deep. The recursion is on the
depth; within one level the readers end because each of them leaves less of the text. -/
def readValue : (depth : Nat) → Reader Json
  | 0 => readValueWith none
  | depth + 1 => readValueWith (some (readValue depth))

/-- A whole document. Behind the value there may be blanks only. -/
def readDocument (s : List Char) : Except Fault Json :=
  match readValue maxDepth s with
  | .error f => .error f
  | .ok (v, r) =>
    match skipBlanks r.text with
    | [] => .ok v
    | c :: q => .error (.atStart .trailingCharacters (c :: q))

/-- **Reads a JSON document.** Faults know how much of the text was left, and are placed by line and
column only here. -/
def parse (text : String) : Except Failure Json :=
  (readDocument text.toList).mapError fun f => f.locate text.toList

end Json

end IncludeMoves
