import MiniC.Text.Quoted

/-!
# Preprocessing tokens

A logical line is cut from the left into identifiers, numbers, character constants, strings,
punctuators and white space, each as long as possible. Nothing is dropped: the texts of the tokens
make up the line. Cutting stops where a literal is not closed or no token can start.
-/

namespace MiniC.Macro

/-- The kinds of preprocessing tokens. -/
inductive TokenKind where
  | endOfInput
  | identifier
  | number
  | charConst
  | string
  | punctuator
  | newline
  | whitespace
  deriving DecidableEq, Repr

namespace TokenKind

/-- All kinds, in the order of their numbers. -/
def all : List TokenKind :=
  [.endOfInput, .identifier, .number, .charConst, .string, .punctuator, .newline, .whitespace]

/-- The name of a kind in messages. -/
def name : TokenKind → Bytes
  | .endOfInput => ascii "EOF"
  | .identifier => ascii "IDENTIFIER"
  | .number => ascii "NUMBER"
  | .charConst => ascii "CHAR_CONST"
  | .string => ascii "STRING"
  | .punctuator => ascii "PUNCTUATOR"
  | .newline => ascii "NEWLINE"
  | .whitespace => ascii "WHITESPACE"

/-- The name of the kind with a given number. -/
def nameOfCode (code : Int) : Bytes :=
  match code with
  | .ofNat n => (all[n]?).elim (ascii "UNKNOWN") name
  | .negSucc _ => ascii "UNKNOWN"

end TokenKind

/-- A token, with the column of its first byte counted from 1. -/
structure Token where
  kind : TokenKind
  text : Bytes
  column : Nat
  deriving DecidableEq, Repr

/-- Why no token can be cut off. -/
inductive TokenFault where
  /-- A literal of this kind is not closed on its line. -/
  | unterminated (kind : TokenKind)
  /-- No token starts with this byte. -/
  | unexpected (b : UInt8)
  deriving DecidableEq, Repr

namespace Token

/-- The punctuators. -/
def punctuators : List Bytes :=
  ["+", "++", "+=", "-", "--", "-=", "->", "*", "*=", "/", "/=", "%", "%=", "&", "&&", "&=",
    "|", "||", "|=", "^", "^=", "=", "==", "!", "!=", "~", "~=", "?", ":", ";", "[", "]", "\x7b",
    "\x7d", "(", ")", ",", ".", ">", ">>", ">=", ">>=", "<", "<<", "<=", "<<="].map ascii

/-- The length of the longest punctuator at the front of the text. -/
def punctuatorLength? (s : Bytes) : Option Nat :=
  [3, 2, 1].find? fun n => (s.take n).length == n && punctuators.contains (s.take n)

/-- A letter that marks the exponent of a number. -/
def isExponentMark (b : UInt8) : Bool :=
  b == ch 'e' || b == ch 'E' || b == ch 'p' || b == ch 'P'

def isSign (b : UInt8) : Bool := b == ch '+' || b == ch '-'

/-- A letter, a digit, an underscore or a point. -/
def isInNumber (b : UInt8) : Bool := isIdent b || b == ch '.'

/-- `taken` and the length of the number at the front of the text: letters, digits, underscores
and points, and a sign directly after an exponent mark. -/
def numberLength (taken : Nat) : Bytes → Nat
  | [] => taken
  | [b] => if isInNumber b then taken + 1 else taken
  | b :: c :: after =>
    if !isInNumber b then taken
    else if isExponentMark b && isSign c then numberLength (taken + 2) after
    else numberLength (taken + 1) (c :: after)

/-- A point with a digit behind it starts a number. -/
def startsNumber : Bytes → Bool
  | b :: rest => isDigit b || (b == ch '.' && rest.head?.any isDigit)
  | [] => false

/-- The literal of the given kind at the front of the text. -/
def literal (kind : TokenKind) (quote : UInt8) (s : Bytes) : Except TokenFault (TokenKind × Nat) :=
  match Quoted.closedLength? quote 1 s.tail with
  | some n => .ok (kind, n)
  | none => .error (.unterminated kind)

/-- Kind and length of the token at the front of a text that starts with `b`. -/
def lexeme (b : UInt8) (s : Bytes) : Except TokenFault (TokenKind × Nat) :=
  if isSpace b then .ok (.whitespace, (s.takeWhile isSpace).length)
  else if isIdentStart b then .ok (.identifier, (s.takeWhile isIdent).length)
  else if startsNumber s then .ok (.number, numberLength 0 s)
  else if b = ch '"' then literal .string b s
  else if b = ch '\'' then literal .charConst b s
  else
    match punctuatorLength? s with
    | some n => .ok (.punctuator, n)
    | none => .error (.unexpected b)

/-- What is left of a line: the column and the text from there on. -/
abbrev Rest := Nat × Bytes

/-- Cuts off one token. -/
def next? (r : Rest) : Option (Token × Rest) :=
  match r.2 with
  | [] => none
  | b :: _ =>
    match lexeme b r.2 with
    | .ok (kind, n) => some (⟨kind, r.2.take n, r.1⟩, (r.1 + n, r.2.drop n))
    | .error _ => none

/-- Where and why cutting stopped; nowhere at the end of the line. -/
def fault? (r : Rest) : Option (Nat × TokenFault) :=
  match r.2 with
  | [] => none
  | b :: _ =>
    match lexeme b r.2 with
    | .ok _ => none
    | .error f => some (r.1, f)

/-- The tokens of a line up to its end or the first fault. -/
def scan (line : Bytes) : List Token × Option (Nat × TokenFault) :=
  let (tokens, rest) := gather next? line [] (1, line)
  (tokens, fault? rest)

/-- The tokens of a line, or the column and the cause of the first fault. -/
def ofLine (line : Bytes) : Except (Nat × TokenFault) (List Token) :=
  match scan line with
  | (tokens, none) => .ok tokens
  | (_, some f) => .error f

/-- The text that tokens make up. -/
def join (tokens : List Token) : Bytes := tokens.flatMap Token.text

end Token

end MiniC.Macro
