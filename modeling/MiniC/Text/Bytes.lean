/-!
# Byte strings

Source text, names and messages are byte strings, that is, lists of bytes. This module has the
conversions every other module uses: ASCII literals, decimal and hexadecimal digits, padding, and
`gather`, the loop that cuts a text into pieces from the left.
-/

namespace MiniC

/-- Text as the compiler sees it: a list of bytes. -/
abbrev Bytes := List UInt8

/-- The byte of an ASCII character. -/
abbrev ch (c : Char) : UInt8 := c.toUInt8

/-- The bytes of an ASCII text. -/
def ascii (s : String) : Bytes := s.toList.map Char.toUInt8

namespace Bytes

/-- The decimal digits of a natural number. -/
def ofNat (n : Nat) : Bytes := (Nat.toDigits 10 n).map Char.toUInt8

/-- The decimal digits of an integer, after a minus sign if it is negative. -/
def ofInt : Int → Bytes
  | .ofNat n => ofNat n
  | .negSucc n => ch '-' :: ofNat (n + 1)

/-- The hexadecimal digits of a natural number, in lower case. -/
def hexOfNat (n : Nat) : Bytes := (Nat.toDigits 16 n).map Char.toUInt8

/-- Fills up on the left to at least `width` bytes. -/
def padLeft (width : Nat) (fill : UInt8) (s : Bytes) : Bytes :=
  List.replicate (width - s.length) fill ++ s

/-- The hexadecimal digits of `n`, at least `width` of them. -/
def hexPadded (width n : Nat) : Bytes := padLeft width (ch '0') (hexOfNat n)

/-- The hexadecimal digits of an integer, filled with zeros to `width` places; a minus sign takes
one of the places. -/
def hexOfInt (width : Nat) : Int → Bytes
  | .ofNat n => hexPadded width n
  | .negSucc n => ch '-' :: hexPadded (width - 1) (n + 1)

/-- The text before the first `sep` and the text after it. -/
def cut? (sep : UInt8) (s : Bytes) : Option (Bytes × Bytes) :=
  match s.dropWhile (· != sep) with
  | [] => none
  | _ :: after => some (s.takeWhile (· != sep), after)

/-- The texts one after another, with `sep` between neighbours. -/
def join (sep : Bytes) (texts : List Bytes) : Bytes := sep.intercalate texts

/-- The fields between separators; a text without a separator is one field. -/
def fields (sep : UInt8) (s : Bytes) : List Bytes :=
  s.foldr (fun b found =>
    if b = sep then [] :: found
    else
      match found with
      | field :: more => (b :: field) :: more
      | [] => [[b]]) [[]]

/-- Lines, each with a newline at its end. -/
def lines (texts : List Bytes) : Bytes := texts.flatMap fun t => t ++ [0x0a]

/-- The text without `tail` at its end, or the whole text if it does not end so. -/
def withoutTail (tail s : Bytes) : Bytes :=
  if tail.isSuffixOf s then s.take (s.length - tail.length) else s

end Bytes

/-- Takes pieces one after another until `next?` finds none, at most one for each byte of the
budget. The result is the pieces, in order after those `found` before (last one first), and the
state that is left. -/
def gather {σ α : Type} (next? : σ → Option (α × σ)) : (budget : Bytes) → (found : List α) → σ →
    List α × σ
  | [], found, s => (found.reverse, s)
  | _ :: budget, found, s =>
    match next? s with
    | none => (found.reverse, s)
    | some (a, s') => gather next? budget (a :: found) s'

end MiniC
