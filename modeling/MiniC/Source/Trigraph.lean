import MiniC.Text.Bytes

/-!
# Trigraphs

Two question marks and one of nine characters stand for a character of their own. Replacement
scans from the left; a question mark that starts no trigraph is kept.
-/

namespace MiniC.Trigraph

/-- What `??` followed by the byte stands for. -/
def image? (b : UInt8) : Option UInt8 :=
  if b = ch '(' then some (ch '[')
  else if b = ch ')' then some (ch ']')
  else if b = ch '<' then some 0x7b
  else if b = ch '>' then some 0x7d
  else if b = ch '=' then some (ch '#')
  else if b = ch '/' then some (ch '\\')
  else if b = ch '\'' then some (ch '^')
  else if b = ch '!' then some (ch '|')
  else if b = ch '-' then some (ch '~')
  else none

/-- The byte that a trigraph at the front of the text stands for. -/
def atFront? : Bytes → Option UInt8
  | q₁ :: q₂ :: b :: _ => if q₁ = ch '?' && q₂ = ch '?' then image? b else none
  | _ => none

/-- The first byte after replacement, and the text not yet looked at. -/
def next? (s : Bytes) : Option (UInt8 × Bytes) :=
  match s with
  | [] => none
  | b :: rest =>
    match atFront? s with
    | some image => some (image, s.drop 3)
    | none => some (b, rest)

/-- The line after the scan. -/
def substitute (line : Bytes) : Bytes := (gather next? line [] line).1

/-- Two question marks stand side by side somewhere in the text. -/
def hasMarks : Bytes → Bool
  | [] => false
  | [_] => false
  | q₁ :: q₂ :: rest => (q₁ == ch '?' && q₂ == ch '?') || hasMarks (q₂ :: rest)

/-- The line with every trigraph replaced; there is nothing to scan for without two question
marks side by side. -/
def replace (line : Bytes) : Bytes := if hasMarks line then substitute line else line

end MiniC.Trigraph
