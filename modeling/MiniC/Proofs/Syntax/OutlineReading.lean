import MiniC.Proofs.Syntax.Relocate
import MiniC.Syntax.Outline

/-!
# Outlines can be read back

The outline of a program is a document whose records have one set of fields for all kinds of nodes,
and what is absent or empty is left out. Still nothing is lost but positions, if they are removed
(`Document.unplaced`), and whether a literal was written as a character or as a number
(`numeric` turns characters into numbers).

The proof is a reader of documents. It works from the leaves up: the fields of a record have been
read when the record is (`Fields`), and the reader for its kind looks the fields up by name.
`lookup_entries_cons` says what it finds if some fields are left out, and `read_type`, `read_expr`,
`read_stmt` and `read_definition` that each tree is read back. So two programs with the same outline
are the same program up to those two differences (`numeric_eq_of_outline_eq`).
-/

namespace MiniC

/-! ### Characters as numbers -/

mutual

/-- The type with every character in it as the number that it stands for. -/
def TypeDesc.numeric : TypeDesc → TypeDesc
  | .base modifiers name p => .base modifiers name p
  | .pointer target p => .pointer target.numeric p
  | .array target p => .array target.numeric p
  | .sizedArray target length p => .sizedArray target.numeric length.numeric p

/-- The expression with every character in it as the number that it stands for. -/
def Expr.numeric : Expr → Expr
  | .number value p => .number value p
  | .char code p => .number (Binary64.ofNat code.toNat) p
  | .string text p => .string text p
  | .list items p => .list (Expr.numericAll items) p
  | .name name p => .name name p
  | .prefixed op operand p => .prefixed op operand.numeric p
  | .suffixed op operand p => .suffixed op operand.numeric p
  | .binary op left right p => .binary op left.numeric right.numeric p
  | .cast type operand p => .cast type.numeric operand.numeric p
  | .sizeOfType type p => .sizeOfType type.numeric p
  | .index base index p => .index base.numeric index.numeric p
  | .call callee arguments p => .call callee.numeric (Expr.numericAll arguments) p

/-- The expressions with every character in them as the number that it stands for. -/
def Expr.numericAll : List Expr → List Expr
  | [] => []
  | e :: rest => e.numeric :: Expr.numericAll rest

end

mutual

/-- The statement with every character in it as the number that it stands for. -/
def Stmt.numeric : Stmt → Stmt
  | .ret value p => .ret (value.map Expr.numeric) p
  | .ifThen condition body p => .ifThen condition.numeric (Stmt.numericAll body) p
  | .ifElse condition body otherwise p =>
    .ifElse condition.numeric (Stmt.numericAll body) (Stmt.numericAll otherwise) p
  | .whileLoop condition body p => .whileLoop condition.numeric (Stmt.numericAll body) p
  | .doWhile body condition p => .doWhile (Stmt.numericAll body) condition.numeric p
  | .forLoop start condition step body p =>
    .forLoop start.numeric (condition.map Expr.numeric) (step.map Expr.numeric)
      (Stmt.numericAll body) p
  | .declaration name type value p =>
    .declaration name type.numeric (value.map Expr.numeric) p
  | .expression value p => .expression (value.map Expr.numeric) p

/-- The statements with every character in them as the number that it stands for. -/
def Stmt.numericAll : List Stmt → List Stmt
  | [] => []
  | s :: rest => s.numeric :: Stmt.numericAll rest

end

theorem Stmt.numericAll_eq_map (l : List Stmt) : Stmt.numericAll l = l.map Stmt.numeric := by
  induction l with
  | nil => rfl
  | cons s rest ih => rw [numericAll, ih, List.map_cons]

/-- The member with every character in it as the number that it stands for. -/
def Member.numeric (m : Member) : Member := { m with type := m.type.numeric }

/-- The enumerator with every character in it as the number that it stands for. -/
def Enumerator.numeric (e : Enumerator) : Enumerator :=
  { e with value := e.value.map Expr.numeric }

/-- The parameter with every character in it as the number that it stands for. -/
def Parameter.numeric (q : Parameter) : Parameter := { q with type := q.type.numeric }

/-- The definition with every character in it as the number that it stands for. -/
def Definition.numeric : Definition → Definition
  | .struct name members p => .struct name (members.map Member.numeric) p
  | .enumeration name members p => .enumeration name (members.map Enumerator.numeric) p
  | .typeName name type p => .typeName name type.numeric p
  | .prototype name result parameters p =>
    .prototype name result.numeric (parameters.map Parameter.numeric) p
  | .function name result parameters body p =>
    .function name result.numeric (parameters.map Parameter.numeric) (body.map Stmt.numeric) p
  | .global name type value p => .global name type.numeric (value.map Expr.numeric) p

/-- The program with every character in it as the number that it stands for. -/
def Program.numeric (p : Program) : Program := p.map Definition.numeric

/-! ### Documents without positions -/

mutual

/-- The document without its positions, that is, without the fields of that name. -/
def Document.unplaced : Document → Document
  | .text s => .text s
  | .number x => .number x
  | .list items => .list (Document.unplacedAll items)
  | .record fields => .record (Document.unplacedFields fields)

def Document.unplacedAll : List Document → List Document
  | [] => []
  | d :: rest => d.unplaced :: Document.unplacedAll rest

def Document.unplacedFields : List (String × Document) → List (String × Document)
  | [] => []
  | (key, d) :: rest =>
    if key = "pos" then Document.unplacedFields rest
    else (key, d.unplaced) :: Document.unplacedFields rest

end

namespace Outline

/-! ### Reading documents -/

/-- What a document stands for. -/
inductive Part where
  | text (s : Bytes)
  | number (x : Binary64)
  | list (items : List Part)
  | type (t : TypeDesc)
  | expr (e : Expr)
  | stmt (s : Stmt)
  | member (m : Member)
  | enumerator (e : Enumerator)
  | parameter (q : Parameter)
  | definition (d : Definition)

namespace Part

@[simp] def text? : Part → Option Bytes
  | .text s => some s
  | _ => none

@[simp] def items : Part → List Part
  | .list items => items
  | _ => []

@[simp] def type? : Part → Option TypeDesc
  | .type t => some t
  | _ => none

@[simp] def expr? : Part → Option Expr
  | .expr e => some e
  | _ => none

@[simp] def stmt? : Part → Option Stmt
  | .stmt s => some s
  | _ => none

@[simp] def member? : Part → Option Member
  | .member m => some m
  | _ => none

@[simp] def enumerator? : Part → Option Enumerator
  | .enumerator e => some e
  | _ => none

@[simp] def parameter? : Part → Option Parameter
  | .parameter q => some q
  | _ => none

@[simp] def definition? : Part → Option Definition
  | .definition d => some d
  | _ => none

end Part

/-- The fields of a record that has been read. -/
abbrev Fields := List (String × Part)

namespace Fields

/-- The text in a field; empty if the field is left out. -/
@[simp] def text (f : Fields) (key : String) : Bytes := ((f.lookup key).bind Part.text?).getD []

/-- The list in a field; empty if the field is left out. -/
@[simp] def list (f : Fields) (key : String) : List Part := ((f.lookup key).map Part.items).getD []

@[simp] def type? (f : Fields) (key : String) : Option TypeDesc := (f.lookup key).bind Part.type?

@[simp] def expr? (f : Fields) (key : String) : Option Expr := (f.lookup key).bind Part.expr?

@[simp] def exprs (f : Fields) (key : String) : List Expr := (f.list key).filterMap Part.expr?

@[simp] def stmts (f : Fields) (key : String) : List Stmt := (f.list key).filterMap Part.stmt?

@[simp] def parameters (f : Fields) : List Parameter := (f.list "params").filterMap Part.parameter?

end Fields

def readBase (f : Fields) : Option Part :=
  some (.type (.base ((f.list "modifiers").filterMap Part.text?) (f.text "name") .nowhere))

def readPointer (f : Fields) : Option Part := do
  return .type (.pointer (← f.type? "target") .nowhere)

def readArray (f : Fields) : Option Part := do
  let target ← f.type? "target"
  match f.expr? "length" with
  | none => return .type (.array target .nowhere)
  | some length => return .type (.sizedArray target length .nowhere)

def readLiteral (f : Fields) : Option Part :=
  match f.lookup "value", f.lookup "text" with
  | some (.number x), _ => some (.expr (.number x .nowhere))
  | _, some (.text s) => some (.expr (.string s .nowhere))
  | _, _ => some (.expr (.list (f.exprs "items") .nowhere))

def readName (f : Fields) : Option Part := some (.expr (.name (f.text "name") .nowhere))

def readPrefixed (f : Fields) : Option Part := do
  let op ← PrefixOp.all.find? fun op => op.spelling == f.text "op"
  return .expr (.prefixed op (← f.expr? "expr") .nowhere)

def readSuffixed (f : Fields) : Option Part := do
  let op ← [SuffixOp.inc, .dec].find? fun op => op.spelling == f.text "op"
  return .expr (.suffixed op (← f.expr? "expr") .nowhere)

def readBinary (f : Fields) : Option Part := do
  let op ← BinaryOp.all.find? fun op => op.spelling == f.text "op"
  return .expr (.binary op (← f.expr? "left") (← f.expr? "right") .nowhere)

def readCast (f : Fields) : Option Part := do
  return .expr (.cast (← f.type? "type") (← f.expr? "expr") .nowhere)

def readSizeOfType (f : Fields) : Option Part := do
  return .expr (.sizeOfType (← f.type? "type") .nowhere)

def readIndex (f : Fields) : Option Part := do
  return .expr (.index (← f.expr? "expr") (← f.expr? "right") .nowhere)

def readCall (f : Fields) : Option Part := do
  return .expr (.call (← f.expr? "expr") (f.exprs "items") .nowhere)

def readReturn (f : Fields) : Option Part := some (.stmt (.ret (f.expr? "expr") .nowhere))

def readIf (f : Fields) : Option Part := do
  let condition ← f.expr? "cond"
  match f.lookup "else" with
  | none => return .stmt (.ifThen condition (f.stmts "body") .nowhere)
  | some _ => return .stmt (.ifElse condition (f.stmts "body") (f.stmts "else") .nowhere)

def readWhile (f : Fields) : Option Part := do
  return .stmt (.whileLoop (← f.expr? "cond") (f.stmts "body") .nowhere)

def readDoWhile (f : Fields) : Option Part := do
  return .stmt (.doWhile (f.stmts "body") (← f.expr? "cond") .nowhere)

def readFor (f : Fields) : Option Part := do
  let start ← (f.lookup "init").bind Part.stmt?
  return .stmt (.forLoop start (f.expr? "cond") (f.expr? "step") (f.stmts "body") .nowhere)

def readDeclaration (f : Fields) : Option Part := do
  return .stmt (.declaration (f.text "name") (← f.type? "type") (f.expr? "init") .nowhere)

def readExpression (f : Fields) : Option Part :=
  some (.stmt (.expression (f.expr? "expr") .nowhere))

def readMember (f : Fields) : Option Part := do
  return .member ⟨f.text "name", ← f.type? "type", .nowhere⟩

def readEnumerator (f : Fields) : Option Part :=
  some (.enumerator ⟨f.text "name", f.expr? "init"⟩)

def readParameter (f : Fields) : Option Part := do
  return .parameter ⟨f.text "name", ← f.type? "type"⟩

def readStruct (f : Fields) : Option Part :=
  some (.definition (.struct (f.text "name") ((f.list "members").filterMap Part.member?) .nowhere))

def readEnumeration (f : Fields) : Option Part :=
  some (.definition
    (.enumeration (f.text "name") ((f.list "members").filterMap Part.enumerator?) .nowhere))

def readTypeName (f : Fields) : Option Part := do
  return .definition (.typeName (f.text "name") (← f.type? "type") .nowhere)

def readPrototype (f : Fields) : Option Part := do
  return .definition (.prototype (f.text "name") (← f.type? "type") f.parameters .nowhere)

def readFunction (f : Fields) : Option Part := do
  return .definition
    (.function (f.text "name") (← f.type? "type") f.parameters (f.stmts "body") .nowhere)

def readGlobal (f : Fields) : Option Part := do
  return .definition (.global (f.text "name") (← f.type? "type") (f.expr? "init") .nowhere)

/-- The readers of records by their kind. -/
def readers : List (Bytes × (Fields → Option Part)) :=
  [(ascii "Type", readBase), (ascii "PointerType", readPointer), (ascii "ArrayType", readArray),
    (ascii "Literal", readLiteral), (ascii "Identifier", readName),
    (ascii "PrefixExpression", readPrefixed), (ascii "SuffixExpression", readSuffixed),
    (ascii "BinaryExpression", readBinary), (ascii "CastExpression", readCast),
    (ascii "SizeofType", readSizeOfType), (ascii "IndexExpression", readIndex),
    (ascii "CallExpression", readCall), (ascii "ReturnStatement", readReturn),
    (ascii "IfStatement", readIf), (ascii "WhileStatement", readWhile),
    (ascii "DoWhileStatement", readDoWhile), (ascii "ForStatement", readFor),
    (ascii "VariableDeclaration", readDeclaration), (ascii "ExpressionStatement", readExpression),
    (ascii "Definition", readMember), (ascii "Enumerator", readEnumerator),
    (ascii "Parameter", readParameter), (ascii "StructDefinition", readStruct),
    (ascii "EnumDefinition", readEnumeration), (ascii "TypeDefStatement", readTypeName),
    (ascii "FunctionDeclaration", readPrototype), (ascii "FunctionDefinition", readFunction),
    (ascii "GlobalVariableDeclaration", readGlobal)]

/-- Reads a record by its kind; one that cannot be read counts as an empty list. -/
def readRecord (f : Fields) : Part :=
  ((readers.lookup (f.text "kind")).bind fun reader => reader f).getD (.list [])

mutual

/-- Reads a document from its leaves up. Positions are passed over. -/
def read : Document → Part
  | .text s => .text s
  | .number x => .number x
  | .list items => .list (readAll items)
  | .record fields => readRecord (readFields fields)

def readAll : List Document → List Part
  | [] => []
  | d :: rest => read d :: readAll rest

def readFields : List (String × Document) → Fields
  | [] => []
  | (key, d) :: rest =>
    if key = "pos" then readFields rest else (key, read d) :: readFields rest

end

theorem readAll_eq_map : ∀ l : List Document, readAll l = l.map read
  | [] => rfl
  | d :: rest => by rw [readAll, readAll_eq_map rest, List.map_cons]

mutual

/-- Positions do not matter to the reader. -/
theorem read_unplaced : ∀ d : Document, read d.unplaced = read d
  | .text _ => rfl
  | .number _ => rfl
  | .list items => by rw [Document.unplaced, read, readAll_unplacedAll items, read]
  | .record fields => by rw [Document.unplaced, read, readFields_unplacedFields fields, read]

theorem readAll_unplacedAll : ∀ l : List Document, readAll (Document.unplacedAll l) = readAll l
  | [] => rfl
  | d :: rest => by
    rw [Document.unplacedAll, readAll, read_unplaced d, readAll_unplacedAll rest, readAll]

theorem readFields_unplacedFields : ∀ l : List (String × Document),
    readFields (Document.unplacedFields l) = readFields l
  | [] => rfl
  | (key, d) :: rest => by
    rw [Document.unplacedFields, readFields]
    split
    · exact readFields_unplacedFields rest
    · next hkey =>
      rw [readFields, if_neg hkey, read_unplaced d, readFields_unplacedFields rest]

end

/-! ### Fields of a node -/

/-- What is read from the fields of a node. -/
def entries (fields : List Field) : Fields := readFields (fields.filterMap id)

/-- What is read from a field, if it is the one with this key. -/
def valueAt (key : String) (f : Field) : Option Part :=
  f.bind fun e => if key = e.1 then some (read e.2) else none

/-- What is read from a text field. -/
def textPart (s : Bytes) : Option Part := if s = [] then none else some (.text s)

/-- What is read from a list field. -/
def listPart (l : List Document) : Option Part := if l.isEmpty then none else some (.list (readAll l))

section Fields
variable {key : String}

@[simp] theorem lookup_entries_nil : (entries []).lookup key = none := rfl

@[simp] theorem lookup_entries_cons (hkey : key ≠ "pos") (f : Field) (fields : List Field) :
    (entries (f :: fields)).lookup key = (valueAt key f).or ((entries fields).lookup key) := by
  cases f with
  | none => rfl
  | some e =>
    obtain ⟨k, d⟩ := e
    have hcons : entries (some (k, d) :: fields) = readFields ((k, d) :: fields.filterMap id) := rfl
    rw [hcons, readFields]
    by_cases hk : k = "pos"
    · subst hk
      simp [valueAt, entries, hkey]
    · by_cases hkk : key = k
      · simp [valueAt, entries, hkk, hk]
      · have hb : (key == k) = false := beq_eq_false_iff_ne.2 hkk
        simp [valueAt, entries, hkk, hk, List.lookup_cons, hb]

@[simp] theorem valueAt_position (hkey : key ≠ "pos") (p : Position) :
    valueAt key (positionField p) = none := by
  rw [positionField, textField]
  split
  · rfl
  · simp [valueAt, hkey]

@[simp] theorem valueAt_field (k : String) (d : Document) :
    valueAt key (field k d) = if key = k then some (read d) else none := rfl

@[simp] theorem valueAt_text (k : String) (s : Bytes) :
    valueAt key (textField k s) = if key = k then textPart s else none := by
  unfold textField textPart
  by_cases hs : s = []
  · simp [hs, valueAt]
  · simp [hs, valueAt, read]

@[simp] theorem valueAt_list (k : String) (l : List Document) :
    valueAt key (listField k l) = if key = k then listPart l else none := by
  unfold listField listPart
  by_cases hl : l.isEmpty
  · simp [hl, valueAt]
  · simp [hl, valueAt, read]

@[simp] theorem valueAt_expr (k : String) (e : Option Expr) :
    valueAt key (exprField k e) = if key = k then e.map fun e => read (expr e) else none := by
  cases e <;> simp [exprField, valueAt]

@[simp] theorem text?_textPart (s : Bytes) : ((textPart s).bind Part.text?).getD [] = s := by
  unfold textPart
  split
  · next hs => rw [hs]; rfl
  · rfl

@[simp] theorem items_listPart (l : List Document) :
    ((listPart l).map Part.items).getD [] = readAll l := by
  unfold listPart
  cases l <;> rfl

end Fields

theorem nodup_readers : (readers.map Prod.fst).Nodup := by decide +kernel

theorem lookup_of_mem {α β : Type} [BEq α] [LawfulBEq α] {a : α} {b : β} :
    ∀ {l : List (α × β)}, (l.map Prod.fst).Nodup → (a, b) ∈ l → l.lookup a = some b
  | (a', b') :: l, hnodup, hmem => by
    obtain ⟨hfirst, hnodup⟩ := List.nodup_cons.1 hnodup
    rw [List.lookup_cons]
    rcases List.mem_cons.1 hmem with heq | hrest
    · cases heq
      rw [beq_self_eq_true]
    · have hne : (a == a') = false := by
        rw [beq_eq_false_iff_ne]
        rintro rfl
        exact hfirst (List.mem_map.2 ⟨(a, b), hrest, rfl⟩)
      rw [hne]
      exact lookup_of_mem hnodup hrest

/-- A node is read by the reader of its kind. -/
theorem read_node (kind : String) (reader : Fields → Option Part)
    (h : (ascii kind, reader) ∈ readers) (fields : List Field) :
    read (node kind fields) =
      (reader (("kind", .text (ascii kind)) :: entries fields)).getD (.list []) := by
  have hfields : readFields (("kind", .text (ascii kind)) :: fields.filterMap id) =
      ("kind", .text (ascii kind)) :: entries fields := by
    rw [readFields, if_neg (by decide), read]
    rfl
  have hkind : Fields.text (("kind", .text (ascii kind)) :: entries fields) "kind" =
      ascii kind := rfl
  rw [node, read, hfields, readRecord, hkind, lookup_of_mem nodup_readers h]
  rfl

/-- A field other than the kind is found among the fields of the node. -/
@[simp] theorem lookup_node {key : String} (hkey : key ≠ "kind") (part : Part) (fields : List Field) :
    (("kind", part) :: entries fields).lookup key = (entries fields).lookup key := by
  rw [List.lookup_cons, beq_eq_false_iff_ne.2 hkey]

/-! ### Trees are read back -/

@[simp] theorem texts_readAll (l : List Bytes) :
    (readAll (l.map .text)).filterMap Part.text? = l := by
  rw [readAll_eq_map, List.map_map, List.filterMap_map]
  exact List.filterMap_some

@[simp] theorem expr?_comp_expr : Part.expr? ∘ Part.expr = some := rfl

@[simp] theorem stmt?_comp_stmt : Part.stmt? ∘ Part.stmt = some := rfl

@[simp] theorem find_prefixOp (op : PrefixOp) :
    PrefixOp.all.find? (fun o => o.spelling == op.spelling) = some op := by
  cases op <;> rfl

@[simp] theorem find_suffixOp (op : SuffixOp) :
    [SuffixOp.inc, .dec].find? (fun o => o.spelling == op.spelling) = some op := by
  cases op <;> rfl

@[simp] theorem find_binaryOp (op : BinaryOp) :
    BinaryOp.all.find? (fun o => o.spelling == op.spelling) = some op := by
  cases op <;> rfl

mutual

theorem read_type : ∀ t : TypeDesc, read (type t) = .type (t.numeric.relocate fun _ => .nowhere)
  | .base modifiers name p => by
    rw [type, read_node "Type" readBase (by simp [readers])]
    simp [readBase, TypeDesc.numeric, TypeDesc.relocate]
  | .pointer target p => by
    rw [type, read_node "PointerType" readPointer (by simp [readers])]
    simp [readPointer, read_type target, TypeDesc.numeric, TypeDesc.relocate]
  | .array target p => by
    rw [type, read_node "ArrayType" readArray (by simp [readers])]
    simp [readArray, read_type target, TypeDesc.numeric, TypeDesc.relocate]
  | .sizedArray target length p => by
    rw [type, read_node "ArrayType" readArray (by simp [readers])]
    simp [readArray, read_type target, read_expr length, TypeDesc.numeric, TypeDesc.relocate]

theorem read_expr : ∀ e : Expr, read (expr e) = .expr (e.numeric.relocate fun _ => .nowhere)
  | .number value p => by
    rw [expr, read_node "Literal" readLiteral (by simp [readers])]
    simp [readLiteral, read, Expr.numeric, Expr.relocate]
  | .char code p => by
    rw [expr, read_node "Literal" readLiteral (by simp [readers])]
    simp [readLiteral, read, Expr.numeric, Expr.relocate]
  | .string text p => by
    rw [expr, read_node "Literal" readLiteral (by simp [readers])]
    simp [readLiteral, read, Expr.numeric, Expr.relocate]
  | .list items p => by
    rw [expr, read_node "Literal" readLiteral (by simp [readers])]
    simp [readLiteral, read_exprs items, Expr.numeric, Expr.relocate]
  | .name name p => by
    rw [expr, read_node "Identifier" readName (by simp [readers])]
    simp [readName, Expr.numeric, Expr.relocate]
  | .prefixed op operand p => by
    rw [expr, read_node "PrefixExpression" readPrefixed (by simp [readers])]
    simp [readPrefixed, read_expr operand, Expr.numeric, Expr.relocate]
  | .suffixed op operand p => by
    rw [expr, read_node "SuffixExpression" readSuffixed (by simp [readers])]
    simp [readSuffixed, read_expr operand, Expr.numeric, Expr.relocate]
  | .binary op left right p => by
    rw [expr, read_node "BinaryExpression" readBinary (by simp [readers])]
    simp [readBinary, read_expr left, read_expr right, Expr.numeric, Expr.relocate]
  | .cast target operand p => by
    rw [expr, read_node "CastExpression" readCast (by simp [readers])]
    simp [readCast, read_type target, read_expr operand, Expr.numeric, Expr.relocate]
  | .sizeOfType target p => by
    rw [expr, read_node "SizeofType" readSizeOfType (by simp [readers])]
    simp [readSizeOfType, read_type target, Expr.numeric, Expr.relocate]
  | .index base index p => by
    rw [expr, read_node "IndexExpression" readIndex (by simp [readers])]
    simp [readIndex, read_expr base, read_expr index, Expr.numeric, Expr.relocate]
  | .call callee arguments p => by
    rw [expr, read_node "CallExpression" readCall (by simp [readers])]
    simp [readCall, read_expr callee, read_exprs arguments, Expr.numeric, Expr.relocate]

theorem read_exprs : ∀ l : List Expr, readAll (exprs l) =
    (Expr.relocateAll (fun _ => .nowhere) (Expr.numericAll l)).map .expr
  | [] => rfl
  | e :: rest => by
    rw [exprs, readAll, read_expr e, read_exprs rest]
    rfl

end

@[simp] theorem expr?_read (e : Option Expr) :
    (e.map fun e => read (expr e)).bind Part.expr? =
      (e.map Expr.numeric).map (Expr.relocate fun _ => .nowhere) := by
  cases e with
  | none => rfl
  | some e => simp [read_expr e]

mutual

theorem read_stmt : ∀ s : Stmt, read (stmt s) = .stmt (s.numeric.relocate fun _ => .nowhere)
  | .ret value p => by
    rw [stmt, read_node "ReturnStatement" readReturn (by simp [readers])]
    simp [readReturn, Stmt.numeric, Stmt.relocate]
  | .ifThen condition body p => by
    rw [stmt, read_node "IfStatement" readIf (by simp [readers])]
    simp [readIf, read_expr, read_stmts body, Stmt.numeric, Stmt.relocate]
  | .ifElse condition body otherwise p => by
    rw [stmt, read_node "IfStatement" readIf (by simp [readers])]
    simp [readIf, read, read_expr, read_stmts body, read_stmts otherwise, Stmt.numeric,
      Stmt.relocate]
  | .whileLoop condition body p => by
    rw [stmt, read_node "WhileStatement" readWhile (by simp [readers])]
    simp [readWhile, read_expr, read_stmts body, Stmt.numeric, Stmt.relocate]
  | .doWhile body condition p => by
    rw [stmt, read_node "DoWhileStatement" readDoWhile (by simp [readers])]
    simp [readDoWhile, read_expr, read_stmts body, Stmt.numeric, Stmt.relocate]
  | .forLoop start condition step body p => by
    rw [stmt, read_node "ForStatement" readFor (by simp [readers])]
    simp [readFor, read_stmt start, read_stmts body, Stmt.numeric, Stmt.relocate]
  | .declaration name target value p => by
    rw [stmt, read_node "VariableDeclaration" readDeclaration (by simp [readers])]
    simp [readDeclaration, read_type, Stmt.numeric, Stmt.relocate]
  | .expression value p => by
    rw [stmt, read_node "ExpressionStatement" readExpression (by simp [readers])]
    simp [readExpression, Stmt.numeric, Stmt.relocate]

theorem read_stmts : ∀ l : List Stmt, readAll (stmts l) =
    (Stmt.relocateAll (fun _ => .nowhere) (Stmt.numericAll l)).map .stmt
  | [] => rfl
  | s :: rest => by
    rw [stmts, readAll, read_stmt s, read_stmts rest]
    rfl

end

theorem read_member (m : Member) : read (member m) = .member m.numeric.unplaced := by
  rw [member, read_node "Definition" readMember (by simp [readers])]
  simp [readMember, read_type, Member.numeric, Member.unplaced, Member.relocate]

theorem read_enumerator (e : Enumerator) :
    read (enumerator e) = .enumerator e.numeric.unplaced := by
  rw [enumerator, read_node "Enumerator" readEnumerator (by simp [readers])]
  simp [readEnumerator, Enumerator.numeric, Enumerator.unplaced, Enumerator.relocate]

theorem read_parameter (q : Parameter) : read (parameter q) = .parameter q.numeric.unplaced := by
  rw [parameter, read_node "Parameter" readParameter (by simp [readers])]
  simp [readParameter, read_type, Parameter.numeric, Parameter.unplaced, Parameter.relocate]

/-- A list of trees is read back if each of them is. -/
theorem filterMap_readAll {α : Type} {outline : α → Document} {part? : Part → Option α}
    {plain : α → α} (h : ∀ a, part? (read (outline a)) = some (plain a)) (l : List α) :
    (readAll (l.map outline)).filterMap part? = l.map plain := by
  rw [readAll_eq_map, List.map_map, List.filterMap_map, ← List.filterMap_eq_map]
  exact congrArg (fun f => l.filterMap f) (funext h)

theorem members_readAll (l : List Member) :
    (readAll (l.map member)).filterMap Part.member? = l.map fun m => m.numeric.unplaced :=
  filterMap_readAll (fun m => by rw [read_member]; rfl) l

theorem enumerators_readAll (l : List Enumerator) :
    (readAll (l.map enumerator)).filterMap Part.enumerator? = l.map fun e => e.numeric.unplaced :=
  filterMap_readAll (fun e => by rw [read_enumerator]; rfl) l

theorem parameters_readAll (l : List Parameter) :
    (readAll (l.map parameter)).filterMap Part.parameter? = l.map fun q => q.numeric.unplaced :=
  filterMap_readAll (fun q => by rw [read_parameter]; rfl) l

theorem stmts_readAll (l : List Stmt) :
    (readAll (stmts l)).filterMap Part.stmt? = (l.map Stmt.numeric).map Stmt.unplaced := by
  rw [read_stmts, List.filterMap_map, stmt?_comp_stmt, List.filterMap_some,
    Stmt.relocateAll_eq_map, Stmt.numericAll_eq_map]
  rfl

/-- **A definition is read back from its outline,** without positions and with characters as
numbers. -/
theorem read_definition (d : Definition) :
    read (definition d) = .definition d.numeric.unplaced := by
  cases d with
  | struct name members p =>
    rw [definition, read_node "StructDefinition" readStruct (by simp [readers])]
    simp [readStruct, members_readAll, Definition.numeric, Definition.unplaced, Definition.relocate,
      Member.unplaced]
  | enumeration name members p =>
    rw [definition, read_node "EnumDefinition" readEnumeration (by simp [readers])]
    simp [readEnumeration, enumerators_readAll, Definition.numeric, Definition.unplaced,
      Definition.relocate, Enumerator.unplaced]
  | typeName name target p =>
    rw [definition, read_node "TypeDefStatement" readTypeName (by simp [readers])]
    simp [readTypeName, read_type, Definition.numeric, Definition.unplaced, Definition.relocate]
  | prototype name result parameters p =>
    rw [definition, read_node "FunctionDeclaration" readPrototype (by simp [readers])]
    simp [readPrototype, read_type, parameters_readAll, Definition.numeric, Definition.unplaced,
      Definition.relocate, Parameter.unplaced]
  | function name result parameters body p =>
    rw [definition, read_node "FunctionDefinition" readFunction (by simp [readers])]
    simp [readFunction, read_type, parameters_readAll, stmts_readAll, Definition.numeric,
      Definition.unplaced, Definition.relocate, Parameter.unplaced, Stmt.unplaced]
  | «global» name target value p =>
    rw [definition, read_node "GlobalVariableDeclaration" readGlobal (by simp [readers])]
    simp [readGlobal, read_type, Definition.numeric, Definition.unplaced, Definition.relocate]

/-- **An outline without positions loses nothing but whether a literal is a character or a
number.** -/
theorem numeric_eq_of_outline_eq {p q : Program}
    (h : p.map (fun d => (definition d).unplaced) = q.map fun d => (definition d).unplaced) :
    p.numeric.unplaced = q.numeric.unplaced := by
  have hread : ∀ r : Program, (r.map fun d => (definition d).unplaced).filterMap
      (fun d => (read d).definition?) = r.numeric.unplaced := by
    intro r
    rw [List.filterMap_map, Program.numeric, Program.unplaced, Program.relocate, List.map_map,
      ← List.filterMap_eq_map]
    refine congrArg (fun f => r.filterMap f) (funext fun d => ?_)
    rw [Function.comp, read_unplaced, read_definition]
    rfl
  rw [← hread p, ← hread q, h]

/-- A character on the first line and its number on the second. -/
theorem numeric_eq_of_outline_eq_char :
    let type (p : Position) : TypeDesc := .base [] (ascii "char") p
    let letter : Program :=
      [.global (ascii "c") (type ⟨[], 1⟩) (some (.char (ch 'a') ⟨[], 1⟩)) ⟨[], 1⟩]
    let code : Program :=
      [.global (ascii "c") (type ⟨[], 2⟩) (some (.number (.ofNat 97) ⟨[], 2⟩)) ⟨[], 2⟩]
    letter.map (fun d => (definition d).unplaced) = code.map (fun d => (definition d).unplaced) ∧
      letter.numeric.unplaced = code.numeric.unplaced := by
  intro type letter code
  have h : letter.map (fun d => (definition d).unplaced) =
      code.map fun d => (definition d).unplaced := rfl
  exact ⟨h, numeric_eq_of_outline_eq h⟩

end Outline

end MiniC
