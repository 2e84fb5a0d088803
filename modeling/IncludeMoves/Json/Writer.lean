/-!
# Writing JSON on one line

Strings and objects of strings in their shortest usual form: quotes, backslashes and control
characters are escaped, all else stands for itself. No line break is ever written.
-/

namespace IncludeMoves

namespace Json

/-- A hexadecimal digit in lower case. -/
def hexChar (n : Nat) : Char := Nat.digitChar n

/-- A character in a string. -/
def escape (c : Char) : List Char :=
  match c with
  | '"' => ['\\', '"']
  | '\\' => ['\\', '\\']
  | '\x08' => ['\\', 'b']
  | '\x0c' => ['\\', 'f']
  | '\n' => ['\\', 'n']
  | '\r' => ['\\', 'r']
  | '\t' => ['\\', 't']
  | c =>
    if c.toNat < 0x20 then
      ['\\', 'u', '0', '0', hexChar (c.toNat / 16), hexChar (c.toNat % 16)]
    else [c]

/-- A text as a string. -/
def quote (text : List Char) : List Char :=
  '"' :: text.flatMap escape ++ ['"']

/-- A member with a string as its value. -/
def writeMember (m : String × String) : List Char :=
  quote m.1.toList ++ ':' :: quote m.2.toList

/-- An object of strings, with its members in the order given. -/
def writeObject (members : List (String × String)) : List Char :=
  '\x7b' :: ([','].intercalate (members.map writeMember)) ++ ['\x7d']

end Json

end IncludeMoves
