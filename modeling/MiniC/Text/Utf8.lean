import MiniC.Text.Bytes

/-!
# UTF-8

A byte string is read from the left as a sequence of pieces: a character in its UTF-8 encoding, or
a stray byte at which no encoding starts. Only the strict form counts: no overlong encodings, no
surrogates, nothing above U+10FFFF. Every byte belongs to exactly one piece, so the pieces give
back the text (`encode`).

Macro values and directive arguments are trimmed of white space at both ends (`Trim.both`). White
space is the Unicode property, so a stray byte is never blank.
-/

namespace MiniC

namespace Utf8

/-- A character, or a byte that starts no character. -/
inductive Piece where
  | char (c : Char)
  | stray (b : UInt8)
  deriving DecidableEq, Repr

/-- The encoding of the code point `n`. -/
def encodeNat (n : Nat) : Bytes :=
  if n < 0x80 then [n.toUInt8]
  else if n < 0x800 then [(0xC0 + n / 64).toUInt8, (0x80 + n % 64).toUInt8]
  else if n < 0x10000 then
    [(0xE0 + n / 4096).toUInt8, (0x80 + n / 64 % 64).toUInt8, (0x80 + n % 64).toUInt8]
  else
    [(0xF0 + n / 262144).toUInt8, (0x80 + n / 4096 % 64).toUInt8, (0x80 + n / 64 % 64).toUInt8,
      (0x80 + n % 64).toUInt8]

/-- The encoding of a character. -/
def encodeChar (c : Char) : Bytes := encodeNat c.toNat

/-- The bytes of a piece. -/
def Piece.bytes : Piece → Bytes
  | .char c => encodeChar c
  | .stray b => [b]

/-- `low ≤ b ≤ high`. -/
def within (low high b : UInt8) : Bool := low ≤ b && b ≤ high

/-- The payload of a continuation byte. -/
def payload (b : UInt8) : Nat := b.toNat % 64

/-- The range of the second byte after the lead byte `b` of a longer encoding, which keeps out
overlong forms, surrogates and what lies above U+10FFFF. -/
def secondRange (b : UInt8) : UInt8 × UInt8 :=
  if b = 0xE0 then (0xA0, 0xBF)
  else if b = 0xED then (0x80, 0x9F)
  else if b = 0xF0 then (0x90, 0xBF)
  else if b = 0xF4 then (0x80, 0x8F)
  else (0x80, 0xBF)

/-- The second byte fits the lead byte `b`. -/
def isSecond (b second : UInt8) : Bool := within (secondRange b).1 (secondRange b).2 second

/-- A further byte of an encoding. -/
def isTail (b : UInt8) : Bool := within 0x80 0xBF b

/-- The first piece of a text and the text after it. -/
def next? : Bytes → Option (Piece × Bytes)
  | [] => none
  | b :: rest =>
    let stray := some (.stray b, rest)
    if b < 0x80 then some (.char (Char.ofNat b.toNat), rest)
    else if within 0xC2 0xDF b then
      match rest with
      | b₁ :: after =>
        if isSecond b b₁ then some (.char (Char.ofNat (b.toNat % 32 * 64 + payload b₁)), after)
        else stray
      | _ => stray
    else if within 0xE0 0xEF b then
      match rest with
      | b₁ :: b₂ :: after =>
        if isSecond b b₁ && isTail b₂ then
          some (.char (Char.ofNat (b.toNat % 16 * 4096 + payload b₁ * 64 + payload b₂)), after)
        else stray
      | _ => stray
    else if within 0xF0 0xF4 b then
      match rest with
      | b₁ :: b₂ :: b₃ :: after =>
        if isSecond b b₁ && isTail b₂ && isTail b₃ then
          some (.char (Char.ofNat (b.toNat % 8 * 262144 + payload b₁ * 4096 + payload b₂ * 64 +
            payload b₃)), after)
        else stray
      | _ => stray
    else stray

/-- The pieces of a text. -/
def pieces (s : Bytes) : List Piece := (gather next? s [] s).1

/-- The text that the pieces make up. -/
def encode (ps : List Piece) : Bytes := ps.flatMap Piece.bytes

/-- The characters of a text, if it has no stray bytes. -/
def chars? (s : Bytes) : Option (List Char) :=
  (pieces s).mapM fun
    | .char c => some c
    | .stray _ => none

/-- The number of pieces of a text, a stray byte counted as one. -/
def size (s : Bytes) : Nat := (pieces s).length

/-- The bytes of a string. -/
def ofString (s : String) : Bytes := s.toList.flatMap encodeChar

end Utf8

/-! ### Trimming -/

namespace Trim

/-- The code point has the Unicode property White_Space. -/
def isWhite (n : Nat) : Bool :=
  (0x09 ≤ n && n ≤ 0x0D) || n == 0x20 || n == 0x85 || n == 0xA0 || n == 0x1680 ||
    (0x2000 ≤ n && n ≤ 0x200A) || n == 0x2028 || n == 0x2029 || n == 0x202F || n == 0x205F ||
    n == 0x3000

/-- A piece of text that is a white space character. -/
def isWhitePiece : Utf8.Piece → Bool
  | .char c => isWhite c.toNat
  | .stray _ => false

/-- The text without white space at its ends. -/
def both (s : Bytes) : Bytes :=
  let front := (Utf8.pieces s).dropWhile isWhitePiece
  Utf8.encode (front.reverse.dropWhile isWhitePiece).reverse

end Trim

end MiniC
