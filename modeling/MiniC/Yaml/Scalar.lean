import MiniC.Text.Base64
import MiniC.Text.Utf8
import MiniC.Yaml.Implicit

/-!
# Scalars

A text is written in one of four styles: plain, in single quotes, in double quotes with escapes,
or as a literal block. Text with a newline is a literal block where one can hold it, text that
would be read as something else is in double quotes, and the rest is as plain as its characters
allow. Text that is not UTF-8 is written in base64 under the tag `!!binary`.
-/

namespace MiniC.Yaml

/-- The styles of a scalar. -/
inductive Style where
  | plain
  | single
  | double
  | literal
  deriving DecidableEq, Repr

/-! ### Classes of characters -/

def isBreak (c : Char) : Bool :=
  c == '\n' || c == '\r' || c == '\u0085' || c == '\u2028' || c == '\u2029'

def isBlank (c : Char) : Bool := c == ' ' || c == '\t'

/-- Characters that stand for themselves; all others but the tab are special. -/
def isVisible (c : Char) : Bool :=
  let n := c.toNat
  n == 0x0A || (0x20 ≤ n && n ≤ 0x7E) || (0xA0 ≤ n && n ≤ 0xD7FF) ||
    (0xE000 ≤ n && n ≤ 0xFFFD && n != 0xFEFF)

def isSpecial (c : Char) : Bool := !isVisible c && c != '\t'

/-- Characters that mean something at the start of a text. -/
def isIndicator (c : Char) : Bool := "#,[]\x7b\x7d&*!|>'\"%@`".toList.contains c

/-! ### Which styles can hold a text -/

/-- Some two neighbours are in the relation. -/
def someNeighbours (p : Char → Char → Bool) (s : List Char) : Bool :=
  (s.zip (s.drop 1)).any fun (a, b) => p a b

/-- A space next to a line break, on its left. -/
def spaceBeforeBreak (s : List Char) : Bool := someNeighbours (fun a b => a == ' ' && isBreak b) s

/-- A space next to a line break, on its right. -/
def spaceAfterBreak (s : List Char) : Bool := someNeighbours (fun a b => isBreak a && b == ' ') s

/-- The text starts like a mark of the format. -/
def startsLikeMark (s : List Char) : Bool :=
  ['-', '-', '-'].isPrefixOf s || ['.', '.', '.'].isPrefixOf s ||
    match s with
    | [] => false
    | c :: rest => isIndicator c || ((c == '?' || c == '-') && rest.head?.all isBlank)

/-- The text holds the mark behind a key or the mark before a comment. -/
def holdsMark (s : List Char) : Bool :=
  s.getLast? == some ':' || someNeighbours (fun a b => a == ':' && isBlank b) s ||
    someNeighbours (fun a b => (isBlank a || isBreak a || a == '\x00') && b == '#') s

def fitsPlain (s : List Char) : Bool :=
  !startsLikeMark s && !holdsMark s && s.head? != some ' ' && s.getLast? != some ' ' &&
    s.all fun c => c != '\t' && !isSpecial c && !isBreak c

def fitsSingle (s : List Char) : Bool :=
  !spaceBeforeBreak s && !spaceAfterBreak s && s.all fun c => c != '\t' && !isSpecial c

def fitsLiteral (s : List Char) : Bool :=
  s.getLast? != some ' ' && !spaceBeforeBreak s && s.all fun c => !isSpecial c

/-- The style for a text that may or may not stand without quotes. -/
def style (mayBePlain : Bool) (s : List Char) : Style :=
  if s.contains '\n' then if fitsLiteral s then .literal else .double
  else if !mayBePlain then .double
  else if fitsPlain s then .plain
  else if fitsSingle s then .single
  else .double

/-! ### Writing -/

/-- Hexadecimal digits in upper case. -/
def upperHex (width n : Nat) : List Char :=
  let digits := (Nat.toDigits 16 n).map Char.toUpper
  List.replicate (width - digits.length) '0' ++ digits

/-- The escape sequence of a character. -/
def escaped (c : Char) : List Char :=
  '\\' :: match c.toNat with
    | 0x00 => ['0']
    | 0x07 => ['a']
    | 0x08 => ['b']
    | 0x09 => ['t']
    | 0x0A => ['n']
    | 0x0B => ['v']
    | 0x0C => ['f']
    | 0x0D => ['r']
    | 0x1B => ['e']
    | 0x22 => ['"']
    | 0x5C => ['\\']
    | 0x85 => ['N']
    | 0xA0 => ['_']
    | 0x2028 => ['L']
    | 0x2029 => ['P']
    | n =>
      if n ≤ 0xFF then 'x' :: upperHex 2 n
      else if n ≤ 0xFFFF then 'u' :: upperHex 4 n
      else 'U' :: upperHex 8 n

/-- Text in double quotes. Text that starts with a byte order mark is escaped throughout. -/
def doubleQuoted (s : List Char) : List Char :=
  let marked := s.head? == some '\ufeff'
  let inner := s.flatMap fun c =>
    if marked || !isVisible c || isBreak c || c == '"' || c == '\\' then escaped c else [c]
  '"' :: inner ++ ['"']

/-- The spaces in front of a line. -/
def spaces (indent : Nat) : List Char := List.replicate indent ' '

/-- Writes each character by `write`, behind the indentation if a line starts with it; `before` is
the character in front of the text. Empty lines stay empty. -/
def indented (indent : Nat) (before : Char) (write : Char → List Char) (s : List Char) :
    List Char :=
  ((before :: s).zip s).flatMap fun (a, c) =>
    if isBreak a && !isBreak c then spaces indent ++ write c else write c

/-- Text in single quotes; a quote is written twice. -/
def singleQuoted (indent : Nat) (s : List Char) : List Char :=
  '\'' :: indented indent ' ' (fun c => if c == '\'' then [c, c] else [c]) s ++ ['\'']

/-- How many line breaks end a text is told by a sign: none by a minus, several by a plus. A break
that is the whole text counts as several. -/
def chomping (s : List Char) : List Char :=
  match s.reverse.map isBreak with
  | true :: false :: _ => []
  | true :: _ => ['+']
  | _ => ['-']

/-- The width of the indentation must be given if the text itself starts with a blank or a
break. -/
def widthHint (s : List Char) : List Char :=
  if s.head?.any fun c => c == ' ' || isBreak c then ['4'] else []

/-- A literal block: the heading, and the lines of the text. A break that starts the text ends the
heading. -/
def literalBlock (indent : Nat) (s : List Char) : List Char :=
  let headingEnd := if s.head?.any isBreak then [] else ['\n']
  '|' :: widthHint s ++ chomping s ++ headingEnd ++ indented indent '\n' (fun c => [c]) s

/-- The text in a style. -/
def written (indent : Nat) (s : List Char) : Style → List Char
  | .plain => s
  | .single => singleQuoted indent s
  | .double => doubleQuoted s
  | .literal => literalBlock indent s

/-- The text in a style and the end of its line. -/
def writtenLine (indent : Nat) (s : List Char) (st : Style) : List Char :=
  written indent s st ++
    if st == .literal && s.getLast?.any isBreak then [] else ['\n']

/-- The lines of a text as a scalar. -/
def scalar (indent : Nat) (s : Bytes) : Bytes :=
  match Utf8.chars? s with
  | some cs => (writtenLine indent cs (style (readsAsText s) cs)).flatMap Utf8.encodeChar
  | none =>
    let letters := (Base64.encodeLines s).map fun b => Char.ofNat b.toNat
    ascii "!!binary " ++ (writtenLine indent letters (style true letters)).flatMap Utf8.encodeChar

end MiniC.Yaml
