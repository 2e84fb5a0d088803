/-!
# Reading bytes as UTF-8

`Utf8.pieces` cuts a byte sequence into the characters it encodes and the parts that encode
nothing. A broken part is as long as it could still have become a character, so a sequence that
stops early is one part, and the byte that stops it is looked at again. `Utf8.decodeLossy` puts one
replacement character in the place of each broken part.
-/

namespace IncludeMoves

namespace Utf8

/-- A part of a byte sequence: a character, or bytes that belong to none. -/
inductive Piece where
  | char (c : Char)
  | broken (bytes : List UInt8)
  deriving DecidableEq, Repr

/-- A character that has begun: the bytes seen (the last one first), the bits they have brought, how
many bytes are missing, and the range in which the next one has to lie. -/
structure Partial where
  seen : List UInt8
  value : Nat
  missing : Nat
  low : UInt8
  high : UInt8

/-- What a byte at the start of a character tells. -/
inductive Start where
  | single (c : Char)
  | longer (p : Partial)
  | invalid

/-- The start of a character. The bounds on the second byte keep out longer spellings than needed,
surrogates, and values above the last code point. -/
def start (b : UInt8) : Start :=
  let longer (bits missing : Nat) (low high : UInt8) : Start :=
    .longer ⟨[b], bits, missing, low, high⟩
  if b < 0x80 then .single (Char.ofNat b.toNat)
  else if b < 0xC2 then .invalid
  else if b < 0xE0 then longer (b.toNat - 0xC0) 1 0x80 0xBF
  else if b = 0xE0 then longer 0 2 0xA0 0xBF
  else if b = 0xED then longer 0xD 2 0x80 0x9F
  else if b < 0xF0 then longer (b.toNat - 0xE0) 2 0x80 0xBF
  else if b = 0xF0 then longer 0 3 0x90 0xBF
  else if b < 0xF4 then longer (b.toNat - 0xF0) 3 0x80 0xBF
  else if b = 0xF4 then longer 4 3 0x80 0x8F
  else .invalid

/-- The pieces of a byte sequence, of which the beginning of a character may have been read. -/
def piecesFrom : Option Partial → List UInt8 → List Piece
  | none, [] => []
  | some p, [] => [.broken p.seen.reverse]
  | none, b :: r =>
    match start b with
    | .single c => .char c :: piecesFrom none r
    | .longer p => piecesFrom (some p) r
    | .invalid => .broken [b] :: piecesFrom none r
  | some p, b :: r =>
    if p.low ≤ b ∧ b ≤ p.high then
      let value := p.value * 64 + (b.toNat - 0x80)
      if p.missing ≤ 1 then .char (Char.ofNat value) :: piecesFrom none r
      else piecesFrom (some ⟨b :: p.seen, value, p.missing - 1, 0x80, 0xBF⟩) r
    else
      .broken p.seen.reverse ::
        match start b with
        | .single c => .char c :: piecesFrom none r
        | .longer q => piecesFrom (some q) r
        | .invalid => .broken [b] :: piecesFrom none r

/-- The characters and the broken parts of a byte sequence, in order. -/
def pieces (bytes : List UInt8) : List Piece :=
  piecesFrom none bytes

/-- The character that stands for a broken part. -/
def replacement : Char := '\uFFFD'

/-- The character that a piece is shown as. -/
def Piece.shown : Piece → Char
  | .char c => c
  | .broken _ => replacement

/-- Bytes as text, with the replacement character for every broken part. Different bytes can give the
same text, so this is for showing only. -/
def decodeLossy (bytes : List UInt8) : List Char :=
  (pieces bytes).map Piece.shown

/-- The bytes of a text. -/
def encode (text : List Char) : List UInt8 :=
  text.flatMap String.utf8EncodeChar

end Utf8

end IncludeMoves
