import MiniC.Syntax.Tree

/-!
# Trees at other positions

`relocate f` moves every node of a tree from its position `p` to `f p`. Two trees are equal up to
positions if they are equal once all positions are wiped out, that is, if their `unplaced` trees
are equal.
-/

namespace MiniC

mutual

/-- The type with every position `p` replaced by `f p`. -/
def TypeDesc.relocate (f : Position → Position) : TypeDesc → TypeDesc
  | .base modifiers name p => .base modifiers name (f p)
  | .pointer target p => .pointer (target.relocate f) (f p)
  | .array target p => .array (target.relocate f) (f p)
  | .sizedArray target length p => .sizedArray (target.relocate f) (length.relocate f) (f p)

/-- The expression with every position `p` replaced by `f p`. -/
def Expr.relocate (f : Position → Position) : Expr → Expr
  | .number value p => .number value (f p)
  | .char code p => .char code (f p)
  | .string text p => .string text (f p)
  | .list items p => .list (Expr.relocateAll f items) (f p)
  | .name name p => .name name (f p)
  | .prefixed op operand p => .prefixed op (operand.relocate f) (f p)
  | .suffixed op operand p => .suffixed op (operand.relocate f) (f p)
  | .binary op left right p => .binary op (left.relocate f) (right.relocate f) (f p)
  | .cast type operand p => .cast (type.relocate f) (operand.relocate f) (f p)
  | .sizeOfType type p => .sizeOfType (type.relocate f) (f p)
  | .index base index p => .index (base.relocate f) (index.relocate f) (f p)
  | .call callee arguments p =>
    .call (callee.relocate f) (Expr.relocateAll f arguments) (f p)

/-- The expressions with every position `p` replaced by `f p`. -/
def Expr.relocateAll (f : Position → Position) : List Expr → List Expr
  | [] => []
  | e :: rest => e.relocate f :: Expr.relocateAll f rest

end

theorem Expr.relocateAll_eq_map (f : Position → Position) :
    ∀ l : List Expr, Expr.relocateAll f l = l.map (Expr.relocate f)
  | [] => rfl
  | e :: rest => by rw [relocateAll, relocateAll_eq_map f rest, List.map_cons]

theorem Expr.relocate_list (f : Position → Position) (items : List Expr) (p : Position) :
    (Expr.list items p).relocate f = .list (items.map (Expr.relocate f)) (f p) := by
  rw [relocate, relocateAll_eq_map]

theorem Expr.relocate_call (f : Position → Position) (callee : Expr) (arguments : List Expr)
    (p : Position) : (Expr.call callee arguments p).relocate f =
      .call (callee.relocate f) (arguments.map (Expr.relocate f)) (f p) := by
  rw [relocate, relocateAll_eq_map]

mutual

/-- The statement with every position `p` replaced by `f p`. -/
def Stmt.relocate (f : Position → Position) : Stmt → Stmt
  | .ret value p => .ret (value.map (Expr.relocate f)) (f p)
  | .ifThen condition body p =>
    .ifThen (condition.relocate f) (Stmt.relocateAll f body) (f p)
  | .ifElse condition body otherwise p =>
    .ifElse (condition.relocate f) (Stmt.relocateAll f body) (Stmt.relocateAll f otherwise) (f p)
  | .whileLoop condition body p =>
    .whileLoop (condition.relocate f) (Stmt.relocateAll f body) (f p)
  | .doWhile body condition p =>
    .doWhile (Stmt.relocateAll f body) (condition.relocate f) (f p)
  | .forLoop start condition step body p =>
    .forLoop (start.relocate f) (condition.map (Expr.relocate f)) (step.map (Expr.relocate f))
      (Stmt.relocateAll f body) (f p)
  | .declaration name type value p =>
    .declaration name (type.relocate f) (value.map (Expr.relocate f)) (f p)
  | .expression value p => .expression (value.map (Expr.relocate f)) (f p)

/-- The statements with every position `p` replaced by `f p`. -/
def Stmt.relocateAll (f : Position → Position) : List Stmt → List Stmt
  | [] => []
  | s :: rest => s.relocate f :: Stmt.relocateAll f rest

end

theorem Stmt.relocateAll_eq_map (f : Position → Position) :
    ∀ l : List Stmt, Stmt.relocateAll f l = l.map (Stmt.relocate f)
  | [] => rfl
  | s :: rest => by rw [relocateAll, relocateAll_eq_map f rest, List.map_cons]

/-- The member with every position `p` replaced by `f p`. -/
def Member.relocate (f : Position → Position) (m : Member) : Member :=
  ⟨m.name, m.type.relocate f, f m.position⟩

/-- The enumerator with every position `p` replaced by `f p`. -/
def Enumerator.relocate (f : Position → Position) (e : Enumerator) : Enumerator :=
  ⟨e.name, e.value.map (Expr.relocate f)⟩

/-- The parameter with every position `p` replaced by `f p`. -/
def Parameter.relocate (f : Position → Position) (q : Parameter) : Parameter :=
  ⟨q.name, q.type.relocate f⟩

/-- The definition with every position `p` replaced by `f p`. -/
def Definition.relocate (f : Position → Position) : Definition → Definition
  | .struct name members p => .struct name (members.map (Member.relocate f)) (f p)
  | .enumeration name members p => .enumeration name (members.map (Enumerator.relocate f)) (f p)
  | .typeName name type p => .typeName name (type.relocate f) (f p)
  | .prototype name result parameters p =>
    .prototype name (result.relocate f) (parameters.map (Parameter.relocate f)) (f p)
  | .function name result parameters body p =>
    .function name (result.relocate f) (parameters.map (Parameter.relocate f))
      (body.map (Stmt.relocate f)) (f p)
  | .global name type value p =>
    .global name (type.relocate f) (value.map (Expr.relocate f)) (f p)

/-- The program with every position `p` replaced by `f p`. -/
def Program.relocate (f : Position → Position) (p : Program) : Program :=
  p.map (Definition.relocate f)

mutual

theorem TypeDesc.relocate_relocate (f g : Position → Position) : ∀ t : TypeDesc,
    (t.relocate f).relocate g = t.relocate fun p => g (f p)
  | .base _ _ _ => rfl
  | .pointer target _ => by
    simp only [TypeDesc.relocate, TypeDesc.relocate_relocate f g target]
  | .array target _ => by
    simp only [TypeDesc.relocate, TypeDesc.relocate_relocate f g target]
  | .sizedArray target length _ => by
    simp only [TypeDesc.relocate, TypeDesc.relocate_relocate f g target,
      Expr.relocate_relocate f g length]

/-- Moving a tree twice is moving it once. -/
theorem Expr.relocate_relocate (f g : Position → Position) : ∀ e : Expr,
    (e.relocate f).relocate g = e.relocate fun p => g (f p)
  | .number _ _ => rfl
  | .char _ _ => rfl
  | .string _ _ => rfl
  | .list items _ => by simp only [Expr.relocate, Expr.relocateAll_relocateAll f g items]
  | .name _ _ => rfl
  | .prefixed _ operand _ => by simp only [Expr.relocate, Expr.relocate_relocate f g operand]
  | .suffixed _ operand _ => by simp only [Expr.relocate, Expr.relocate_relocate f g operand]
  | .binary _ left right _ => by
    simp only [Expr.relocate, Expr.relocate_relocate f g left, Expr.relocate_relocate f g right]
  | .cast type operand _ => by
    simp only [Expr.relocate, TypeDesc.relocate_relocate f g type,
      Expr.relocate_relocate f g operand]
  | .sizeOfType type _ => by simp only [Expr.relocate, TypeDesc.relocate_relocate f g type]
  | .index base index _ => by
    simp only [Expr.relocate, Expr.relocate_relocate f g base, Expr.relocate_relocate f g index]
  | .call callee arguments _ => by
    simp only [Expr.relocate, Expr.relocate_relocate f g callee,
      Expr.relocateAll_relocateAll f g arguments]

theorem Expr.relocateAll_relocateAll (f g : Position → Position) : ∀ l : List Expr,
    Expr.relocateAll g (Expr.relocateAll f l) = Expr.relocateAll (fun p => g (f p)) l
  | [] => rfl
  | e :: rest => by
    simp only [Expr.relocateAll, Expr.relocate_relocate f g e,
      Expr.relocateAll_relocateAll f g rest]

end

mutual

theorem TypeDesc.relocate_id : ∀ t : TypeDesc, t.relocate (fun p => p) = t
  | .base _ _ _ => rfl
  | .pointer target _ => by rw [TypeDesc.relocate, TypeDesc.relocate_id target]
  | .array target _ => by rw [TypeDesc.relocate, TypeDesc.relocate_id target]
  | .sizedArray target length _ => by
    rw [TypeDesc.relocate, TypeDesc.relocate_id target, Expr.relocate_id length]

theorem Expr.relocate_id : ∀ e : Expr, e.relocate (fun p => p) = e
  | .number _ _ => rfl
  | .char _ _ => rfl
  | .string _ _ => rfl
  | .list items _ => by rw [Expr.relocate, Expr.relocateAll_id items]
  | .name _ _ => rfl
  | .prefixed _ operand _ => by rw [Expr.relocate, Expr.relocate_id operand]
  | .suffixed _ operand _ => by rw [Expr.relocate, Expr.relocate_id operand]
  | .binary _ left right _ => by
    rw [Expr.relocate, Expr.relocate_id left, Expr.relocate_id right]
  | .cast type operand _ => by
    rw [Expr.relocate, TypeDesc.relocate_id type, Expr.relocate_id operand]
  | .sizeOfType type _ => by rw [Expr.relocate, TypeDesc.relocate_id type]
  | .index base index _ => by
    rw [Expr.relocate, Expr.relocate_id base, Expr.relocate_id index]
  | .call callee arguments _ => by
    rw [Expr.relocate, Expr.relocate_id callee, Expr.relocateAll_id arguments]

theorem Expr.relocateAll_id : ∀ l : List Expr, Expr.relocateAll (fun p => p) l = l
  | [] => rfl
  | e :: rest => by rw [Expr.relocateAll, Expr.relocate_id e, Expr.relocateAll_id rest]

end

/-- A list whose trees all stay is not changed. -/
theorem map_relocate_id {α : Type} {relocate : (Position → Position) → α → α}
    (h : ∀ a, relocate (fun p => p) a = a) (l : List α) : l.map (relocate fun p => p) = l := by
  rw [List.map_congr_left fun a _ => h a, List.map_id']

theorem Expr.map_relocate_id (o : Option Expr) : o.map (Expr.relocate fun p => p) = o := by
  cases o with
  | none => rfl
  | some e => rw [Option.map_some, e.relocate_id]

mutual

theorem Stmt.relocate_id : ∀ s : Stmt, s.relocate (fun p => p) = s
  | .ret value _ => by rw [Stmt.relocate, Expr.map_relocate_id value]
  | .ifThen condition body _ => by
    rw [Stmt.relocate, condition.relocate_id, Stmt.relocateAll_id body]
  | .ifElse condition body otherwise _ => by
    rw [Stmt.relocate, condition.relocate_id, Stmt.relocateAll_id body,
      Stmt.relocateAll_id otherwise]
  | .whileLoop condition body _ => by
    rw [Stmt.relocate, condition.relocate_id, Stmt.relocateAll_id body]
  | .doWhile body condition _ => by
    rw [Stmt.relocate, Stmt.relocateAll_id body, condition.relocate_id]
  | .forLoop start condition step body _ => by
    rw [Stmt.relocate, Stmt.relocate_id start, Expr.map_relocate_id condition,
      Expr.map_relocate_id step, Stmt.relocateAll_id body]
  | .declaration _ type value _ => by
    rw [Stmt.relocate, type.relocate_id, Expr.map_relocate_id value]
  | .expression value _ => by rw [Stmt.relocate, Expr.map_relocate_id value]

theorem Stmt.relocateAll_id : ∀ l : List Stmt, Stmt.relocateAll (fun p => p) l = l
  | [] => rfl
  | s :: rest => by rw [Stmt.relocateAll, Stmt.relocate_id s, Stmt.relocateAll_id rest]

end

theorem Member.relocate_id (m : Member) : m.relocate (fun p => p) = m := by
  rw [Member.relocate, m.type.relocate_id]

theorem Enumerator.relocate_id (e : Enumerator) : e.relocate (fun p => p) = e := by
  rw [Enumerator.relocate, Expr.map_relocate_id]

theorem Parameter.relocate_id (q : Parameter) : q.relocate (fun p => p) = q := by
  rw [Parameter.relocate, q.type.relocate_id]

/-- Moving every node to where it is changes nothing. -/
theorem Definition.relocate_id (d : Definition) : d.relocate (fun p => p) = d := by
  cases d with
  | struct name members p => rw [relocate, map_relocate_id Member.relocate_id]
  | enumeration name members p => rw [relocate, map_relocate_id Enumerator.relocate_id]
  | typeName name type p => rw [relocate, type.relocate_id]
  | prototype name result parameters p =>
    rw [relocate, result.relocate_id, map_relocate_id Parameter.relocate_id]
  | function name result parameters body p =>
    rw [relocate, result.relocate_id, map_relocate_id Parameter.relocate_id,
      map_relocate_id Stmt.relocate_id]
  | «global» name type value p => rw [relocate, type.relocate_id, Expr.map_relocate_id]

/-! ### Without positions -/

/-- The position of trees whose positions are wiped out. -/
def Position.nowhere : Position := ⟨[], 0⟩

/-- The type without its positions. -/
def TypeDesc.unplaced (t : TypeDesc) : TypeDesc := t.relocate fun _ => .nowhere

/-- The expression without its positions. -/
def Expr.unplaced (e : Expr) : Expr := e.relocate fun _ => .nowhere

/-- The statement without its positions. -/
def Stmt.unplaced (s : Stmt) : Stmt := s.relocate fun _ => .nowhere

/-- The member without its positions. -/
def Member.unplaced (m : Member) : Member := m.relocate fun _ => .nowhere

/-- The enumerator without its positions. -/
def Enumerator.unplaced (e : Enumerator) : Enumerator := e.relocate fun _ => .nowhere

/-- The parameter without its positions. -/
def Parameter.unplaced (q : Parameter) : Parameter := q.relocate fun _ => .nowhere

/-- The definition without its positions. -/
def Definition.unplaced (d : Definition) : Definition := d.relocate fun _ => .nowhere

/-- The program without its positions. -/
def Program.unplaced (p : Program) : Program := p.relocate fun _ => .nowhere

@[simp] theorem Expr.unplaced_unplaced (e : Expr) : e.unplaced.unplaced = e.unplaced :=
  e.relocate_relocate _ _

theorem Expr.unplaced_list (items : List Expr) (p : Position) :
    (Expr.list items p).unplaced = .list (items.map Expr.unplaced) .nowhere := by
  rw [unplaced, relocate, relocateAll_eq_map]
  rfl

theorem Expr.unplaced_call (callee : Expr) (arguments : List Expr) (p : Position) :
    (Expr.call callee arguments p).unplaced =
      .call callee.unplaced (arguments.map Expr.unplaced) .nowhere := by
  rw [unplaced, relocate, relocateAll_eq_map]
  rfl

/-- Equal as far as `f` tells: with `unplaced`, equal up to positions. -/
def Alike {α β : Type} (f : α → β) (a b : α) : Prop := f a = f b

end MiniC
