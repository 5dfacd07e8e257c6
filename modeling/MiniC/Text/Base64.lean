import MiniC.Text.Bytes

/-!
# Base64

Three bytes are written as four letters of an alphabet of 64, six bits each; `=` fills up the last
group. Long texts are cut into lines of 70 letters.
-/

namespace MiniC.Base64

/-- The letters, in the order of their values. -/
def alphabet : Bytes := ascii "ABCDEFGHIJKLMNOPQRSTUVWXYZabcdefghijklmnopqrstuvwxyz0123456789+/"

/-- The letter for the lowest six bits. -/
def letter (n : Nat) : UInt8 := alphabet.getD (n % 64) 0

/-- The letters of a group of one to three bytes. -/
def group : Bytes → Bytes
  | [] => []
  | [a] => [letter (a.toNat / 4), letter (a.toNat * 16), ch '=', ch '=']
  | [a, b] =>
    let n := a.toNat * 256 + b.toNat
    [letter (n / 1024), letter (n / 16), letter (n * 4), ch '=']
  | a :: b :: c :: _ =>
    let n := a.toNat * 65536 + b.toNat * 256 + c.toNat
    [letter (n / 262144), letter (n / 4096), letter (n / 64), letter n]

/-- Cuts a text into parts of `n` bytes; the last one may be shorter. -/
def parts (n : Nat) (s : Bytes) : List Bytes :=
  (gather (fun s => if s.isEmpty then none else some (s.take n, s.drop n)) s [] s).1

/-- The letters for a text. -/
def encode (s : Bytes) : Bytes := (parts 3 s).flatMap group

/-- The length of a line. -/
def lineLength : Nat := 70

/-- The letters for a text: as they are if they fit into one line, else in lines that all end in a
newline. -/
def encodeLines (s : Bytes) : Bytes :=
  let letters := encode s
  if letters.length < lineLength then letters
  else (parts lineLength letters).flatMap fun line => line ++ [0x0a]

end MiniC.Base64
