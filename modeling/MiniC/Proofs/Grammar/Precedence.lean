import MiniC.Proofs.Grammar.Operand

/-!
# Precedence

A chain `x₀ op₁ x₁ … opₙ xₙ` is written with single spaces around its operators; an operand is a
name or a chain in parentheses. `parseExpression_chain`: every chain is read, as the one tree over
its operands and operators in order that is well grouped, where an operand in parentheses stands
for what its chain is read as.

The proof is an induction on the length of the text: the operands of a chain are shorter than the
chain in its parentheses, so the parser reads them (`exists_readAs`), and then it climbs as
`Grouping.Climb` says.
-/

namespace MiniC.Grammar

open MiniC.Parser MiniC.Scan

/-- An operand of a chain: a name, or a chain in parentheses. -/
inductive Term where
  | name (n : Bytes)
  | group (first : Term) (links : List (BinaryOp × Term))

/-- An operator between single spaces. -/
def spaced (op : BinaryOp) : Bytes := ch ' ' :: (op.spelling ++ [ch ' '])

theorem joins_spaced (op : BinaryOp) : Joins op (spaced op) := .inl rfl

namespace Term

mutual

/-- The text of an operand. -/
def text : Term → Bytes
  | .name n => n
  | .group first links => ch '(' :: (first.text ++ (linksText links ++ [ch ')']))

/-- The text of operators and the operands behind them. -/
def linksText : List (BinaryOp × Term) → Bytes
  | [] => []
  | (op, x) :: l => spaced op ++ (x.text ++ linksText l)

end

theorem linksText_eq : ∀ l, linksText l = Grammar.linksText spaced text l
  | [] => rfl
  | (op, x) :: l => by rw [linksText, Grammar.linksText, linksText_eq l]

mutual

/-- All names in the operand may name variables. -/
def Valid (v : Vocabulary) : Term → Prop
  | .name n => IsVariable v n
  | .group first links => first.Valid v ∧ LinksValid v links

/-- All names in the operands of the links may name variables. -/
def LinksValid (v : Vocabulary) : List (BinaryOp × Term) → Prop
  | [] => True
  | (_, x) :: l => x.Valid v ∧ LinksValid v l

end

theorem LinksValid.valid {v : Vocabulary} : ∀ {l : List (BinaryOp × Term)}, LinksValid v l →
    ∀ x ∈ l, x.2.Valid v
  | (op, x) :: l, h, y, hy => by
    rcases List.mem_cons.mp hy with rfl | hy
    · exact h.1
    · exact LinksValid.valid h.2 y hy

theorem length_text_le_linksText : ∀ {l : List (BinaryOp × Term)}, ∀ x ∈ l,
    x.2.text.length ≤ (linksText l).length
  | (op, x) :: l, y, hy => by
    rw [linksText, List.length_append, List.length_append]
    rcases List.mem_cons.mp hy with rfl | hy
    · dsimp only; omega
    · have := length_text_le_linksText y hy
      omega

end Term

/-- The text of a chain. -/
def chainText (first : Term) (links : List (BinaryOp × Term)) : Bytes :=
  first.text ++ Term.linksText links

/-- The operand stands for the expression, up to positions: a name for itself, a chain in
parentheses for what the chain is read as. -/
def Term.Spells (file : Bytes) (v : Vocabulary) : Term → Expr → Prop
  | .name n, e => e.unplaced = .name n .nowhere
  | .group first links, e =>
    ∃ e', parseExpression (chainText first links) file v = .ok e' ∧ e'.unplaced = e.unplaced

/-- The tree has the shape of the expression, and its operands stand for the operands there. -/
def TreeSpells (file : Bytes) (v : Vocabulary) : Grouping Term → Expr → Prop
  | .leaf x, e => x.Spells file v e
  | .node op left right, e => ∃ a b p, e = .binary op a b p ∧
    TreeSpells file v left a ∧ TreeSpells file v right b

/-! ### Reading the operands of a chain -/

section Reading
variable {v : Vocabulary} {operand : Parser (Option Expr)}

theorem Term.starts (hv : IdentifiersOnly v) {x : Term} (hx : x.Valid v) : Starts v x.text := by
  cases x with
  | name n => exact starts_name hx hv
  | group first links => exact starts_cons rfl rfl (by decide) hv

theorem starts_chainText (hv : IdentifiersOnly v) {first : Term} (hf : first.Valid v)
    (links : List (BinaryOp × Term)) : Starts v (chainText first links) := by
  cases links with
  | nil =>
    rw [chainText, Term.linksText, List.append_nil]
    exact Term.starts hv hf
  | cons x links => exact (Term.starts hv hf).append rfl

theorem readsOperand_group (hv : IdentifiersOnly v) {first : Term}
    {links : List (BinaryOp × Term)} (hf : first.Valid v) {value : Term → Expr}
    {tree : Grouping Term} (htree : Grouping.Climb 0 (.leaf first) links tree [])
    (hfirst : ReadsOperand v operand first.text (value first))
    (hlinks : ∀ x ∈ links, ReadsOperand v operand x.2.text (value x.2)) :
    ReadsOperand v (operandStep operand) (Term.group first links).text (tree.expr value) := by
  refine ⟨rfl, fun k hk => ?_⟩
  have htext : (Term.group first links).text ++ k =
      ch '(' :: (chainText first links ++ ch ')' :: k) := by
    simp [Term.text, chainText]
  have hends : Ends (ch ')' :: k) := ends_cons k rfl
  have hinner := requiredWith_reads joins_spaced hends htree hfirst hlinks
  rw [← Term.linksText_eq, ← List.append_assoc] at hinner
  rw [htext]
  refine operandStep_reads prefixOps_miss_paren
    (fun p => primary_group (starts_chainText hv hf links) hinner hk.settled) fun e he => ?_
  refine (suffixes_stop hk).mono ?_
  rintro e' rfl
  exact he

end Reading

/-- The operand stands for the expression, which has no positions, and is read as it at every
level of nesting that the text leaves room for. -/
structure Term.ReadAs (file : Bytes) (v : Vocabulary) (x : Term) (e : Expr) : Prop where
  spells : x.Spells file v e
  unplaced : e.unplaced = e
  reads : ∀ n : Bytes, x.text.length < n.length → ReadsOperand v (operandWithin n) x.text e

section Chain
variable {v : Vocabulary} {file : Bytes} {first : Term} {links : List (BinaryOp × Term)}
  {value : Term → Expr} {tree : Grouping Term}

theorem readAs_name {n : Bytes} (hn : IsVariable v n) :
    (Term.name n).ReadAs file v (.name n .nowhere) := by
  refine ⟨rfl, rfl, fun b hb => ?_⟩
  cases b with
  | nil => simp at hb
  | cons c b => exact readsOperand_name hn

/-- **A chain is read as the parser climbs over it,** once its operands are read. -/
theorem parseExpression_of_climb (htree : Grouping.Climb 0 (.leaf first) links tree [])
    (hfirst : first.ReadAs file v (value first))
    (hlinks : ∀ x ∈ links, x.2.ReadAs file v (value x.2)) :
    ∃ e, parseExpression (chainText first links) file v = .ok e ∧
      e.unplaced = tree.expr value := by
  have hf := readsOperand_operand hfirst.reads
  refine parseExpression_of_reads (head_append_of_isSolid hf.1 _) ?_
  have h := requiredWith_reads joins_spaced ends_nil htree hf
    fun x hx => readsOperand_operand (hlinks x hx).reads
  rwa [← Term.linksText_eq, List.append_nil] at h

theorem exists_readAs_group (hv : IdentifiersOnly v) (hf : first.Valid v)
    (hfirst : first.ReadAs file v (value first))
    (hlinks : ∀ x ∈ links, x.2.ReadAs file v (value x.2)) :
    ∃ e, (Term.group first links).ReadAs file v e := by
  obtain ⟨tree, htree, -⟩ := Grouping.exists_wellGrouped first links
  obtain ⟨e, hparse, he⟩ := parseExpression_of_climb htree hfirst hlinks
  have hself : (tree.expr value).unplaced = tree.expr value := by
    rw [← he, Expr.unplaced_unplaced]
  refine ⟨tree.expr value, ⟨e, hparse, by rw [hself, he]⟩, hself, fun n hn => ?_⟩
  cases n with
  | nil => simp at hn
  | cons b n =>
    simp only [Term.text, List.length_cons, List.length_append] at hn
    refine readsOperand_group hv hf htree (hfirst.reads n (by omega)) fun x hx => ?_
    have := Term.length_text_le_linksText x hx
    exact (hlinks x hx).reads n (by omega)

end Chain

/-- **Every operand is read,** by induction on the length of its text. -/
theorem exists_readAs {v : Vocabulary} (hv : IdentifiersOnly v) (file : Bytes) :
    ∀ m : Nat, ∃ value : Term → Expr, ∀ x : Term, x.text.length < m → x.Valid v →
      x.ReadAs file v (value x)
  | 0 => ⟨fun _ => .name [] .nowhere, fun x hx => absurd hx (Nat.not_lt_zero _)⟩
  | m + 1 => by
    obtain ⟨value, ih⟩ := exists_readAs hv file m
    have hstep : ∀ x : Term, ∃ e, x.text.length < m + 1 → x.Valid v → x.ReadAs file v e := by
      intro x
      by_cases hx : x.text.length < m + 1 ∧ x.Valid v
      · obtain ⟨hlen, hval⟩ := hx
        cases x with
        | name n => exact ⟨_, fun _ _ => readAs_name hval⟩
        | group first links =>
          simp only [Term.text, List.length_cons, List.length_append] at hlen
          obtain ⟨e, he⟩ := exists_readAs_group hv hval.1 (ih first (by omega) hval.1)
            fun y hy => ih y.2 (by have := Term.length_text_le_linksText y hy; omega)
              (hval.2.valid y hy)
          exact ⟨e, fun _ _ => he⟩
      · exact ⟨.name [] .nowhere, fun h₁ h₂ => absurd ⟨h₁, h₂⟩ hx⟩
    choose value hvalue using hstep
    exact ⟨value, hvalue⟩

/-! ### The tree of a chain -/

section Tree
variable {v : Vocabulary} {file : Bytes}

/-- What an operand stands for does not depend on positions. -/
theorem Term.Spells.congr {x : Term} {d e : Expr} (h : x.Spells file v d)
    (hde : e.unplaced = d.unplaced) : x.Spells file v e := by
  cases x with
  | name n => exact hde.trans h
  | group first links =>
    obtain ⟨e', hparse, he'⟩ := h
    exact ⟨e', hparse, he'.trans hde.symm⟩

theorem exists_of_unplaced_eq_binary {e a b : Expr} {op : BinaryOp} {p : Position}
    (h : e.unplaced = .binary op a b p) :
    ∃ a' b' p', e = .binary op a' b' p' ∧ a'.unplaced = a ∧ b'.unplaced = b := by
  cases e with
  | binary op' a' b' p' =>
    simp only [Expr.unplaced, Expr.relocate, Expr.binary.injEq] at h
    obtain ⟨rfl, ha, hb, -⟩ := h
    exact ⟨a', b', p', rfl, ha, hb⟩
  | _ => cases h

/-- An expression with the tree's shape is spelled by the tree, if the values of the operands are
spelled by them. -/
theorem treeSpells_of_unplaced_eq {value : Term → Expr} : ∀ {tree : Grouping Term} {e : Expr},
    e.unplaced = tree.expr value → tree.first.ReadAs file v (value tree.first) →
    (∀ x ∈ tree.links, x.2.ReadAs file v (value x.2)) → TreeSpells file v tree e
  | .leaf x, e, he, hfirst, _ => hfirst.spells.congr (he.trans hfirst.unplaced.symm)
  | .node op l r, e, he, hfirst, hlinks => by
    obtain ⟨a, b, p, rfl, ha, hb⟩ := exists_of_unplaced_eq_binary he
    refine ⟨a, b, p, rfl, treeSpells_of_unplaced_eq ha hfirst fun x hx => ?_,
      treeSpells_of_unplaced_eq hb ?_ fun x hx => ?_⟩
    · exact hlinks x (List.mem_append_left _ hx)
    · exact hlinks (op, r.first) (List.mem_append_right _ List.mem_cons_self)
    · exact hlinks x (List.mem_append_right _ (List.mem_cons_of_mem _ hx))

/-- **Expressions group as the precedence of their operators prescribes.** Every chain is read, as
the one tree over its operands and operators in order that is well grouped. -/
theorem parseExpression_chain (hv : IdentifiersOnly v) {first : Term}
    {links : List (BinaryOp × Term)} (hfirst : first.Valid v) (hlinks : Term.LinksValid v links)
    (file : Bytes) :
    ∃ (tree : Grouping Term) (e : Expr),
      parseExpression (chainText first links) file v = .ok e ∧ TreeSpells file v tree e ∧
      tree.first = first ∧ tree.links = links ∧ tree.WellGrouped ∧
      ∀ other : Grouping Term, other.first = first → other.links = links → other.WellGrouped →
        other = tree := by
  obtain ⟨tree, htree, rfl, rfl, hwell⟩ := Grouping.exists_wellGrouped first links
  obtain ⟨value, hvalue⟩ := exists_readAs hv file (chainText tree.first tree.links).length.succ
  have hlen : ∀ x ∈ tree.links,
      x.2.text.length < (chainText tree.first tree.links).length.succ := by
    intro x hx
    have := Term.length_text_le_linksText x hx
    rw [chainText, List.length_append]
    omega
  have hf := hvalue tree.first (by rw [chainText, List.length_append]; omega) hfirst
  have hl : ∀ x ∈ tree.links, x.2.ReadAs file v (value x.2) := fun x hx =>
    hvalue x.2 (hlen x hx) (hlinks.valid x hx)
  obtain ⟨e, hparse, he⟩ := parseExpression_of_climb htree hf hl
  refine ⟨tree, e, hparse, treeSpells_of_unplaced_eq he hf hl, rfl, rfl, hwell, ?_⟩
  intro other hof hol hother
  exact hother.unique hwell hof hol

end Tree

/-- `x = (a + b * c) - d ? y : z` is a chain with a chain in parentheses among its operands. -/
theorem parseExpression_chain_assignment :
    let first := Term.name (ascii "x")
    let links : List (BinaryOp × Term) :=
      [(.assign, .group (.name (ascii "a")) [(.add, .name (ascii "b")), (.mul, .name (ascii "c"))]),
        (.sub, .name (ascii "d")), (.question, .name (ascii "y")), (.colon, .name (ascii "z"))]
    IdentifiersOnly .initial ∧ first.Valid .initial ∧ Term.LinksValid .initial links ∧
      ∃ (tree : Grouping Term) (e : Expr),
        parseExpression (chainText first links) [] .initial = .ok e ∧
        TreeSpells [] .initial tree e ∧
        tree.first = first ∧ tree.links = links ∧ tree.WellGrouped ∧
        ∀ other : Grouping Term, other.first = first → other.links = links → other.WellGrouped →
          other = tree := by
  intro first links
  have hv : IdentifiersOnly .initial := by decide
  have hf : first.Valid .initial := (by decide : IsVariable .initial (ascii "x"))
  have hl : Term.LinksValid .initial links := by
    refine ⟨⟨?_, ?_, ?_, trivial⟩, ?_, ?_, ?_, trivial⟩
    · exact (by decide : IsVariable .initial (ascii "a"))
    · exact (by decide : IsVariable .initial (ascii "b"))
    · exact (by decide : IsVariable .initial (ascii "c"))
    · exact (by decide : IsVariable .initial (ascii "d"))
    · exact (by decide : IsVariable .initial (ascii "y"))
    · exact (by decide : IsVariable .initial (ascii "z"))
  exact ⟨hv, hf, hl, parseExpression_chain hv hf hl []⟩

end MiniC.Grammar
