import MiniC.Number.Numeral
import MiniC.Syntax.Tree
import MiniC.Text.Quoted

/-!
# Printing trees

Trees are printed in the notation of the language. A binary expression that is an operand stands
in parentheses, so the shape of the tree shows; each definition is followed by an empty line, and
bodies are indented by two spaces a level.
-/

namespace MiniC.Printer

/-- Puts parentheses around a text if asked. -/
def parenthesized (wanted : Bool) (s : Bytes) : Bytes :=
  if wanted then ch '(' :: s ++ [ch ')'] else s

/-! ### Types -/

/-- Modifiers and name of the base type. -/
def baseText : TypeDesc → Bytes
  | .base modifiers name _ => modifiers.flatMap (fun m => m ++ [ch ' ']) ++ name
  | .pointer target _ => baseText target
  | .array target _ => baseText target
  | .sizedArray target _ _ => baseText target

/-- The number of layers around the base type. -/
def layers : TypeDesc → Nat
  | .base _ _ _ => 0
  | .pointer target _ => layers target + 1
  | .array target _ => layers target + 1
  | .sizedArray target _ _ => layers target + 1

/-- The number of stars: the layers below the outer array brackets. -/
def stars : TypeDesc → Nat
  | .array target _ => stars target
  | .sizedArray target _ _ => stars target
  | type => layers type

/-- A type around a name, given the text of its array brackets. The name may be empty. -/
def declaratorWith (brackets : Bytes) (type : TypeDesc) (name : Bytes) : Bytes :=
  let n := stars type
  let pointers := if n = 0 then [] else ch ' ' :: List.replicate n (ch '*')
  let named := if name = [] then [] else if n = 0 then ch ' ' :: name else name
  baseText type ++ pointers ++ named ++ brackets

/-! ### Expressions -/

mutual

/-- The text of an expression. -/
def expr : Expr → Bytes
  | .number value _ => Numeral.text value
  | .char code _ => Quoted.code code.toNat
  | .string text _ => Quoted.text text
  | .list items _ => 0x7b :: Bytes.join (ascii ", ") (exprs items) ++ [0x7d]
  | .name name _ => name
  | .prefixed op operand _ =>
    op.spelling ++ (if op = .sizeOf then [ch ' '] else []) ++
      parenthesized operand.isBinary (expr operand)
  | .suffixed op operand _ => parenthesized operand.isBinary (expr operand) ++ op.spelling
  | .binary op left right _ =>
    let sign := if op = .member || op = .arrow then op.spelling
      else ch ' ' :: op.spelling ++ [ch ' ']
    parenthesized left.isBinary (expr left) ++
      (sign ++ parenthesized right.isBinary (expr right))
  | .cast type operand _ =>
    ch '(' :: declaratorWith (brackets type) type [] ++
      (ch ')' :: parenthesized operand.isBinary (expr operand))
  | .sizeOfType type _ => ascii "sizeof(" ++ declaratorWith (brackets type) type [] ++ [ch ')']
  | .index base index _ =>
    parenthesized base.isBinary (expr base) ++ (ch '[' :: expr index ++ [ch ']'])
  | .call callee arguments _ =>
    parenthesized callee.isBinary (expr callee) ++
      (ch '(' :: Bytes.join (ascii ", ") (exprs arguments) ++ [ch ')'])

/-- The texts of expressions. -/
def exprs : List Expr → List Bytes
  | [] => []
  | e :: rest => expr e :: exprs rest

/-- The array brackets of a type, in the order in which they are written. -/
def brackets : TypeDesc → Bytes
  | .base _ _ _ => []
  | .pointer _ _ => []
  | .array target _ => brackets target ++ ascii "[]"
  | .sizedArray target length _ => brackets target ++ (ch '[' :: expr length ++ [ch ']'])

end

/-- A type around a name, as in `unsigned int *p[4]`. -/
def declarator (type : TypeDesc) (name : Bytes) : Bytes :=
  declaratorWith (brackets type) type name

/-- A value behind `=`, if there is one. -/
def initialValue : Option Expr → Bytes
  | none => []
  | some e => ascii " = " ++ expr e

/-! ### Statements -/

def indentation (level : Nat) : Bytes := List.replicate (2 * level) (ch ' ')

/-- The text of an expression that may be missing. -/
def optional : Option Expr → Bytes
  | none => []
  | some e => expr e

/-- The text of a body in braces. -/
def braced (level : Nat) (inner : Bytes) : Bytes :=
  indentation level ++ ascii "\x7b\n" ++ (inner ++ (indentation level ++ ascii "\x7d\n"))

/-- A keyword with a condition in parentheses, and what follows on the next line. -/
def headed (keyword : String) (condition : Expr) (rest : Bytes) : Bytes :=
  ascii keyword ++ ascii " (" ++ expr condition ++ ascii ")\n" ++ rest

mutual

/-- The text of a statement at a level of indentation, its own indentation left out. -/
def stmt (level : Nat) : Stmt → Bytes
  | .ret none _ => ascii "return;\n"
  | .ret (some e) _ => ascii "return " ++ expr e ++ ascii ";\n"
  | .ifThen condition body _ => headed "if" condition (braced level (stmts (level + 1) body))
  | .ifElse condition body otherwise _ =>
    headed "if" condition (braced level (stmts (level + 1) body) ++
      (indentation level ++ ascii "else\n" ++ braced level (stmts (level + 1) otherwise)))
  | .whileLoop condition body _ =>
    headed "while" condition (braced level (stmts (level + 1) body))
  | .doWhile body condition _ =>
    ascii "do\n" ++ (braced level (stmts (level + 1) body) ++
      (indentation level ++ ascii "while (" ++ expr condition ++ ascii ");\n"))
  | .forLoop start condition step body _ =>
    ascii "for (" ++ Bytes.withoutTail [0x0a] (stmt 0 start) ++ ascii " " ++ optional condition ++
      ascii "; " ++ optional step ++ ascii ")\n" ++ braced level (stmts (level + 1) body)
  | .declaration name type value _ => declarator type name ++ initialValue value ++ ascii ";\n"
  | .expression value _ => optional value ++ ascii ";\n"

/-- The texts of statements, each with its indentation. -/
def stmts (level : Nat) : List Stmt → Bytes
  | [] => []
  | s :: rest => indentation level ++ (stmt level s ++ stmts level rest)

end

/-! ### Definitions -/

/-- The head of a function. -/
def header (result : TypeDesc) (name : Bytes) (parameters : List Parameter) : Bytes :=
  declarator result name ++ ch '(' ::
    Bytes.join (ascii ", ") (parameters.map fun p => declarator p.type p.name) ++ [ch ')']

/-- The text of a definition. -/
def definition : Definition → Bytes
  | .struct name members _ =>
    ascii "struct " ++ name ++ ascii " \x7b\n" ++
      members.flatMap (fun m => indentation 1 ++ declarator m.type m.name ++ ascii ";\n") ++
      ascii "\x7d;\n"
  | .enumeration name members _ =>
    let lines := members.map fun m => indentation 1 ++ m.name ++ initialValue m.value
    ascii "enum " ++ name ++ ascii " \x7b\n" ++
      (if lines = [] then [] else Bytes.join (ascii ",\n") lines ++ [0x0a]) ++ ascii "\x7d;\n"
  | .typeName name type _ => ascii "typedef " ++ declarator type name ++ ascii ";\n"
  | .prototype name result parameters _ => header result name parameters ++ ascii ";\n"
  | .function name result parameters body _ =>
    header result name parameters ++ ascii "\n" ++ braced 0 (stmts 1 body)
  | .global name type value _ => declarator type name ++ initialValue value ++ ascii ";\n"

/-- The text of a program. -/
def program (p : Program) : Bytes := p.flatMap fun d => definition d ++ [0x0a]

end MiniC.Printer
