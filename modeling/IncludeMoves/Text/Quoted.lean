import IncludeMoves.Text.Hidden
import IncludeMoves.Text.Utf8

/-!
# Names between quotes, for messages

A name of arbitrary bytes is shown between double quotes. Double quotes, backslashes and characters
that have no sign of their own are written as escapes, and a byte that belongs to no character as
`\x` with its value.
-/

namespace IncludeMoves

namespace Quoted

/-- A character between quotes. -/
def escape (c : Char) : List Char :=
  match c with
  | '\x00' => ['\\', '0']
  | '\t' => ['\\', 't']
  | '\n' => ['\\', 'n']
  | '\r' => ['\\', 'r']
  | '"' => ['\\', '"']
  | '\\' => ['\\', '\\']
  | c => if isHidden c then ['\\', 'u', '\x7b'] ++ Nat.toDigits 16 c.toNat ++ ['\x7d'] else [c]

/-- A byte that belongs to no character. -/
def escapeByte (b : UInt8) : List Char :=
  let digit (n : Nat) : Char := (Nat.digitChar n).toUpper
  ['\\', 'x', digit (b.toNat / 16), digit (b.toNat % 16)]

/-- The name between quotes. -/
def ofBytes (bytes : List UInt8) : String :=
  let shown (p : Utf8.Piece) : List Char :=
    match p with
    | .char c => escape c
    | .broken bs => bs.flatMap escapeByte
  String.ofList ('"' :: (Utf8.pieces bytes).flatMap shown ++ ['"'])

end Quoted

end IncludeMoves
