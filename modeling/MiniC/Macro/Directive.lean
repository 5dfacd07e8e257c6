import MiniC.Text.ByteClass

/-!
# Directives

A line whose first mark is `#`, followed by one of seven keywords, is a directive. The keyword is
a whole word; the arguments are the rest of the line after blanks.
-/

namespace MiniC.Macro

/-- The recognised keywords. -/
inductive Keyword where
  | define
  | undef
  | include
  | ifdef
  | ifndef
  | ifExpr
  | endif
  deriving DecidableEq, Repr

namespace Keyword

/-- All keywords, in the order of their numbers. -/
def all : List Keyword := [.define, .undef, .include, .ifdef, .ifndef, .ifExpr, .endif]

def spelling : Keyword → Bytes
  | .define => ascii "define"
  | .undef => ascii "undef"
  | .include => ascii "include"
  | .ifdef => ascii "ifdef"
  | .ifndef => ascii "ifndef"
  | .ifExpr => ascii "if"
  | .endif => ascii "endif"

/-- The keyword that is spelled so. -/
def ofSpelling? (word : Bytes) : Option Keyword := all.find? fun k => k.spelling == word

end Keyword

/-- A directive line. -/
structure Directive where
  keyword : Keyword
  arguments : Bytes
  deriving DecidableEq, Repr

namespace Directive

/-- The blanks allowed around the parts of a directive: space, tab, newline, form feed and
carriage return. -/
def isBlank (b : UInt8) : Bool :=
  b == ch ' ' || b == 0x09 || b == 0x0a || b == 0x0c || b == 0x0d

/-- The text after the first mark, if that is `#`. -/
def afterHash? (line : Bytes) : Option Bytes :=
  match line.dropWhile isBlank with
  | b :: rest => if b = ch '#' then some (rest.dropWhile isBlank) else none
  | [] => none

/-- The directive on a line; the arguments may not run over a newline. -/
def ofLine? (line : Bytes) : Option Directive := do
  let body ← afterHash? line
  let keyword ← Keyword.ofSpelling? (body.takeWhile isIdent)
  let arguments := (body.dropWhile isIdent).dropWhile isBlank
  if arguments.contains 0x0a then none else some ⟨keyword, arguments⟩

/-- After spaces and tabs the line starts with `#`. -/
def isHashLine (line : Bytes) : Bool :=
  (line.dropWhile fun b => b == ch ' ' || b == 0x09).head? == some (ch '#')

end Directive

end MiniC.Macro
