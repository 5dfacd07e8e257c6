import MiniC.Syntax.Outline
import MiniC.Yaml.Scalar

/-!
# Block layout

A document is written with one field or item on a line, nested ones deeper. What stands behind a
dash is two columns deeper than the dash; what stands under a key goes to the next multiple of
four. Empty lists and records are written in brackets.
-/

namespace MiniC.Yaml

/-- The indentation of what stands under the keys of a record. -/
def underKey (indent : Nat) : Nat := 4 * ((indent + 4) / 4)

/-- The indentation of what stands behind a dash. -/
def behindDash (indent : Nat) : Nat := indent + 2

def indentation (indent : Nat) : Bytes := List.replicate indent (ch ' ')

mutual

/-- The lines of a document at an indentation, which is left out before the first of them. -/
def block (indent : Nat) : Document → Bytes
  | .text s => scalar indent s
  | .number x => Numeral.text x ++ [0x0a]
  | .list [] => ascii "[]\n"
  | .list (d :: rest) =>
    ascii "- " ++ block (behindDash indent) d ++ items indent rest
  | .record [] => ascii "\x7b\x7d\n"
  | .record ((key, value) :: rest) =>
    ascii key ++ ch ':' :: under indent value ++ fields indent rest

/-- What stands behind a key: on the same line, or on lines of its own. -/
def under (indent : Nat) : Document → Bytes
  | .text s => ch ' ' :: scalar (underKey indent) s
  | .number x => ch ' ' :: Numeral.text x ++ [0x0a]
  | .list [] => ascii " []\n"
  | .list (d :: rest) =>
    0x0a :: indentation (underKey indent) ++ ascii "- " ++
      block (behindDash (underKey indent)) d ++ items (underKey indent) rest
  | .record [] => ascii " \x7b\x7d\n"
  | .record ((key, value) :: rest) =>
    0x0a :: indentation (underKey indent) ++ ascii key ++ ch ':' :: under (underKey indent) value ++
      fields (underKey indent) rest

/-- The lines of further items of a list. -/
def items (indent : Nat) : List Document → Bytes
  | [] => []
  | d :: rest =>
    indentation indent ++ ascii "- " ++ block (behindDash indent) d ++ items indent rest

/-- The lines of further fields of a record. -/
def fields (indent : Nat) : List (String × Document) → Bytes
  | [] => []
  | (key, value) :: rest =>
    indentation indent ++ ascii key ++ ch ':' :: under indent value ++ fields indent rest

end

/-- The text of a whole document. -/
def text (d : Document) : Bytes := block 0 d

end MiniC.Yaml
