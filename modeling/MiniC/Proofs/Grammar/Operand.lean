import MiniC.Grammar.Program
import MiniC.Proofs.Grammar.Reading
import MiniC.Proofs.Syntax.Grouping
import MiniC.Proofs.Syntax.Vocabulary

/-!
# Reading operands and operators

Rules for the parsers of expressions, in terms of the text at the cursor. An operand is read up to
a text that `Follows` it: one that goes on with no letter, digit or suffix. An expression is read
up to a text that `Ends` it, where no binary operator stands either.

* `binaryOp?_reads`: between operands the longest operator is found, whether it stands between
  spaces or, for `.` and `->`, directly behind its operand.
* `climb_reads`: the parser climbs as the relation `Grouping.Climb` says, given that it reads the
  operands; a step of the parser is `climbWithin_stop` or `climbWithin_step`, and
  `requiredWith_reads` puts the first operand in front.
* `operandStep_reads`: an operand is a primary expression, as `primary_name` and `primary_group`
  read it, with the suffixes that follow.
* `parseExpression_of_reads`: what is read up to the end of a text is the outcome for the text.
-/

namespace MiniC.Grammar

open MiniC.Parser MiniC.Scan

/-! ### What follows an operand -/

/-- The marks with which the suffix of an operand starts. -/
def suffixMarks : List Bytes := ["[", "(", "++", "--"].map ascii

/-- The text may follow an operand: it does not go on with the operand's last word, and no suffix
stands behind the white space at its front. -/
structure Follows (k : Bytes) : Prop where
  settled : Settled (k.dropWhile isSpace)
  edge : k.head?.any isIdent = false
  suffix : ∀ w ∈ suffixMarks, leads w (k.dropWhile isSpace) = false

/-- The text may follow an expression: in addition, no binary operator stands there. -/
structure Ends (k : Bytes) : Prop extends Follows k where
  operator : ∀ op : BinaryOp, leads op.spelling (k.dropWhile isSpace) = false

/-- The marks that end an expression inside a larger text. -/
def isCloser (b : UInt8) : Bool := b == ch ')' || b == ch ']' || b == ch ',' || b == ch ';'

theorem ends_nil : Ends [] where
  settled := settled_nil
  edge := rfl
  suffix := by decide
  operator := fun op => by cases op <;> rfl

theorem isSolid_of_isCloser {b : UInt8} (h : isCloser b = true) : isSolid b = true := by
  simp only [isCloser, Bool.or_eq_true, beq_iff_eq] at h
  obtain ((rfl | rfl) | rfl) | rfl := h <;> rfl

theorem ends_cons {b : UInt8} (r : Bytes) (h : isCloser b = true) : Ends (b :: r) := by
  have hs : (b :: r).head?.any isSolid = true := isSolid_of_isCloser h
  have hd := dropWhile_isSpace_of_isSolid hs
  simp only [isCloser, Bool.or_eq_true, beq_iff_eq] at h
  refine ⟨⟨?_, ?_, ?_⟩, ?_⟩
  · rw [hd]; exact settled_of_isSolid hs
  · obtain ((rfl | rfl) | rfl) | rfl := h <;> rfl
  · rw [hd]
    intro w hw
    simp only [suffixMarks, List.map_cons, List.map_nil, List.mem_cons, List.not_mem_nil,
      or_false] at hw
    obtain ((rfl | rfl) | rfl) | rfl := h <;> obtain rfl | rfl | rfl | rfl := hw <;> rfl
  · rw [hd]
    intro op
    obtain ((rfl | rfl) | rfl) | rfl := h <;> cases op <;> rfl

/-! ### Operators -/

/-- The text `j` joins two operands by `op`: the operator between spaces or, for `.` and `->`,
alone. -/
def Joins (op : BinaryOp) (j : Bytes) : Prop :=
  j = ch ' ' :: (op.spelling ++ [ch ' ']) ∨ (j = op.spelling ∧ (op = .member ∨ op = .arrow))

/-- The white space behind the operator in a text that joins operands. -/
theorem Joins.exists_gap {op : BinaryOp} {j : Bytes} (h : Joins op j) (r : Bytes) :
    ∃ gap, (gap = [] ∧ (op = .member ∨ op = .arrow) ∨ gap = [ch ' ']) ∧
      (j ++ r).dropWhile isSpace = op.spelling ++ (gap ++ r) := by
  rcases h with rfl | ⟨rfl, h⟩
  · refine ⟨[ch ' '], .inr rfl, ?_⟩
    cases op <;> rfl
  · refine ⟨[], .inl ⟨rfl, h⟩, ?_⟩
    rcases h with rfl | rfl <;> rfl

/-- **The longest operator is found** where two operands are joined. -/
theorem binaryOp?_reads {v : Vocabulary} {op : BinaryOp} {j r : Bytes} (hj : Joins op j)
    (hr : r.head?.any isSolid = true) :
    Reads v binaryOp? ((j ++ r).dropWhile isSpace) (· = some op) ((j ++ r).dropWhile isSpace) := by
  obtain ⟨gap, hgap, hd⟩ := hj.exists_gap r
  rw [hd]
  have hfind : (BinaryOp.longestFirst.find? fun o => leads o.spelling
      (op.spelling ++ (gap ++ r))) = some op := by
    rcases hgap with ⟨rfl, rfl | rfl⟩ | rfl
    · rfl
    · rfl
    · cases op <;> rfl
  have hc : Blank.comment? (gap ++ r) = none := by
    rcases hgap with ⟨rfl, -⟩ | rfl
    · exact (settled_of_isSolid hr).comment
    · exact comment?_of_isSpace r rfl
  have h := firstPeeked_reads (v := v) (w := BinaryOp.spelling) (l := BinaryOp.longestFirst)
    (s := op.spelling ++ (gap ++ r)) (by
      rw [hfind]
      rintro o ⟨⟩
      rw [List.drop_left]
      exact hc)
  rwa [hfind] at h

theorem accept_op_reads {v : Vocabulary} {op : BinaryOp} {j r : Bytes} (hj : Joins op j)
    (hr : r.head?.any isSolid = true) :
    Reads v (accept op.spelling) ((j ++ r).dropWhile isSpace) (· = true) r := by
  obtain ⟨gap, hgap, hd⟩ := hj.exists_gap r
  have hdrop : (gap ++ r).dropWhile isSpace = r := by
    rcases hgap with ⟨rfl, -⟩ | rfl
    · exact dropWhile_isSpace_of_isSolid hr
    · exact dropWhile_isSpace_of_isSolid hr
  have h := accept_reads (v := v) hd (fun hw => by cases op <;> cases hw)
    (by rw [hdrop]; exact settled_of_isSolid hr)
  rwa [hdrop] at h

theorem follows_of_joins {op : BinaryOp} {j r : Bytes} (hj : Joins op j) : Follows (j ++ r) := by
  obtain ⟨gap, hgap, hd⟩ := hj.exists_gap r
  have hmarks : ∀ w ∈ suffixMarks, leads w (op.spelling ++ (gap ++ r)) = false := by
    intro w hw
    simp only [suffixMarks, List.map_cons, List.map_nil, List.mem_cons, List.not_mem_nil,
      or_false] at hw
    rcases hgap with ⟨rfl, rfl | rfl⟩ | rfl
    · obtain rfl | rfl | rfl | rfl := hw <;> rfl
    · obtain rfl | rfl | rfl | rfl := hw <;> rfl
    · obtain rfl | rfl | rfl | rfl := hw <;> cases op <;> rfl
  refine ⟨?_, ?_, by rwa [hd]⟩
  · rw [hd]
    rcases hgap with ⟨rfl, rfl | rfl⟩ | rfl
    · exact settled_of_isSolid rfl
    · exact settled_of_isSolid rfl
    · cases op <;> exact ⟨rfl, rfl, rfl⟩
  · rcases hj with rfl | ⟨rfl, rfl | rfl⟩ <;> rfl

theorem binaryOp?_ends {v : Vocabulary} {k : Bytes} (hk : Ends k) :
    Reads v binaryOp? (k.dropWhile isSpace) (· = none) (k.dropWhile isSpace) := by
  have hfind : (BinaryOp.longestFirst.find? fun o => leads o.spelling (k.dropWhile isSpace)) =
      none := List.find?_eq_none.mpr fun o _ => by simp [hk.operator o]
  have h := firstPeeked_reads (v := v) (w := BinaryOp.spelling) (l := BinaryOp.longestFirst)
    (s := k.dropWhile isSpace) (by rw [hfind]; simp)
  rwa [hfind] at h

/-! ### Climbing -/

/-- The text of links, given the texts of the operands and of the operators with what is around
them. -/
def linksText {α : Type} (joint : BinaryOp → Bytes) (text : α → Bytes) :
    List (BinaryOp × α) → Bytes
  | [] => []
  | (op, x) :: l => joint op ++ (text x ++ linksText joint text l)

section Climbing
variable {α : Type} {joint : BinaryOp → Bytes} {text : α → Bytes} {value : α → Expr}
  {operand : Parser (Option Expr)} {v : Vocabulary} {k : Bytes}

/-- The parser `operand` reads the operand `x`, wherever it stands. -/
def ReadsOperand (v : Vocabulary) (operand : Parser (Option Expr)) (s : Bytes) (e : Expr) : Prop :=
  s.head?.any isSolid = true ∧ ∀ k, Follows k →
    Reads v operand (s ++ k) (fun o => ∃ e', o = some e' ∧ e'.unplaced = e) (k.dropWhile isSpace)

theorem follows_links (hj : ∀ op, Joins op (joint op)) (hk : Ends k) (l : List (BinaryOp × α)) :
    Follows (linksText joint text l ++ k) := by
  cases l with
  | nil => exact hk.toFollows
  | cons x l =>
    rw [linksText, List.append_assoc]
    exact follows_of_joins (hj x.1)

theorem length_le_links (text : α → Bytes) (hj : ∀ op, Joins op (joint op)) (k : Bytes) :
    ∀ l : List (BinaryOp × α), l.length ≤ (linksText joint text l ++ k).length
  | [] => by simp
  | (op, x) :: l => by
    have ih := length_le_links text hj k l
    have hpos : 0 < (joint op).length := by
      rcases hj op with h | ⟨h, -⟩ <;> rw [h]
      · simp
      · cases op <;> decide
    simp only [linksText, List.length_append, List.length_cons] at ih ⊢
    omega

/-- Behind the first operator there is a byte for each further link. -/
theorem length_le_dropWhile_links (text : α → Bytes) (hj : ∀ op, Joins op (joint op))
    (k : Bytes) (l : List (BinaryOp × α)) :
    l.length ≤ ((linksText joint text l ++ k).dropWhile isSpace).length := by
  cases l with
  | nil => simp
  | cons x l =>
    obtain ⟨op, x⟩ := x
    rw [linksText, List.append_assoc]
    obtain ⟨gap, -, hd⟩ := (hj op).exists_gap ((text x ++ linksText joint text l) ++ k)
    have hpos : 0 < op.spelling.length := by cases op <;> decide
    have := length_le_links text hj k l
    rw [hd]
    simp only [List.length_append, List.length_cons] at this ⊢
    omega

/-- Climbing ends in front of an operator below the level, or behind the last link. -/
theorem climbWithin_stop (hj : ∀ op, Joins op (joint op)) (hk : Ends k) {level : Nat} {n : Bytes}
    {e : Expr} {l : List (BinaryOp × α)} (hstop : ∀ x ∈ l.head?, x.1.precedence < level)
    (hx : ∀ x ∈ l, ReadsOperand v operand (text x.2) (value x.2)) (hn : 0 < n.length) :
    Reads v (climbWithin operand n level e) ((linksText joint text l ++ k).dropWhile isSpace)
      (· = e) ((linksText joint text l ++ k).dropWhile isSpace) := by
  cases n with
  | nil => simp at hn
  | cons b n =>
    rw [climbWithin]
    cases l with
    | nil =>
      refine (binaryOp?_ends hk).bind_eq ?_
      exact Reads.pure rfl
    | cons x l =>
      obtain ⟨op, x⟩ := x
      have hsolid : ((text x ++ linksText joint text l) ++ k).head?.any isSolid = true :=
        head_append_of_isSolid (head_append_of_isSolid (hx _ List.mem_cons_self).1 _) _
      rw [linksText, List.append_assoc]
      refine (binaryOp?_reads (hj op) hsolid).bind_eq ?_
      dsimp only
      rw [if_pos (hstop _ rfl)]
      exact Reads.pure rfl

/-- One link: the operand behind the operator climbs first, and then the node of both climbs on. -/
theorem climbWithin_step (hj : ∀ op, Joins op (joint op)) (hk : Ends k) {level : Nat}
    {op : BinaryOp} {x : α} {l : List (BinaryOp × α)} {b : UInt8} {n t u : Bytes} {e : Expr}
    {Q R : Expr → Prop}
    (hle : level ≤ op.precedence) (hx : ReadsOperand v operand (text x) (value x))
    (hright : ∀ e', e'.unplaced = value x → Reads v (climbWithin operand n op.rightLevel e')
      ((linksText joint text l ++ k).dropWhile isSpace) Q t)
    (hnext : ∀ e' p, Q e' → Reads v (climbWithin operand n level (.binary op e e' p)) t R u) :
    Reads v (climbWithin operand (b :: n) level e)
      ((linksText joint text ((op, x) :: l) ++ k).dropWhile isSpace) R u := by
  have hsolid : ((text x ++ linksText joint text l) ++ k).head?.any isSolid = true :=
    head_append_of_isSolid (head_append_of_isSolid hx.1 _) _
  rw [climbWithin, linksText, List.append_assoc]
  refine (binaryOp?_reads (hj op) hsolid).bind_eq ?_
  dsimp only
  rw [if_neg (not_lt.mpr hle)]
  refine here_reads.bind fun p _ => ?_
  refine (accept_op_reads (hj op) hsolid).bind_eq ?_
  rw [required, bind_assoc, List.append_assoc]
  refine (hx.2 _ (follows_links hj hk l)).bind ?_
  rintro o ⟨e', rfl, he'⟩
  dsimp only
  rw [pure_bind]
  exact (hright e' he').bind fun e₁ he₁ => hnext e₁ p he₁

/-- **The parser climbs as the relation says.** -/
theorem climb_reads (hj : ∀ op, Joins op (joint op)) (hk : Ends k) {level : Nat}
    {left tree : Grouping α} {l rest : List (BinaryOp × α)}
    (h : Grouping.Climb level left l tree rest)
    (hx : ∀ x ∈ l, ReadsOperand v operand (text x.2) (value x.2)) :
    ∀ {n : Bytes} {e : Expr}, l.length < n.length → e.unplaced = left.expr value →
      Reads v (climbWithin operand n level e) ((linksText joint text l ++ k).dropWhile isSpace)
        (fun e' => e'.unplaced = tree.expr value)
        ((linksText joint text rest ++ k).dropWhile isSpace) := by
  induction h with
  | stop hstop =>
    intro n e hn he
    refine (climbWithin_stop hj hk hstop hx (by omega)).mono ?_
    rintro _ rfl
    exact he
  | @step level left right tree op x l rest rest' hle hr ht ih₁ ih₂ =>
    intro n e hn he
    cases n with
    | nil => simp at hn
    | cons b n =>
      have hl : ∀ y ∈ l, ReadsOperand v operand (text y.2) (value y.2) :=
        fun y hy => hx y (List.mem_cons_of_mem _ hy)
      -- the links that the right operand leaves are links of the text
      have hrest : ∀ y ∈ rest, ReadsOperand v operand (text y.2) (value y.2) := by
        intro y hy
        have := hr.links_eq.2
        simp only [Grouping.links, List.nil_append] at this
        exact hl y (this ▸ List.mem_append_right _ hy)
      have hlen := hr.length_le
      simp only [List.length_cons] at hn
      refine climbWithin_step hj hk hle (hx _ List.mem_cons_self)
        (fun e' he' => ih₁ hl (by omega) he') fun e₁ p he₁ => ih₂ hrest (by omega) ?_
      simp only [Expr.unplaced, Expr.relocate, Grouping.expr] at he he₁ ⊢
      rw [he, he₁]

/-- **An expression is read as its operands climb.** -/
theorem requiredWith_reads (hj : ∀ op, Joins op (joint op)) (hk : Ends k) {x : α}
    {tree : Grouping α} {l : List (BinaryOp × α)} (h : Grouping.Climb 0 (.leaf x) l tree [])
    (hx : ReadsOperand v operand (text x) (value x))
    (hl : ∀ y ∈ l, ReadsOperand v operand (text y.2) (value y.2)) :
    Reads v (requiredWith operand) (text x ++ (linksText joint text l ++ k))
      (fun e => e.unplaced = tree.expr value) (k.dropWhile isSpace) := by
  rw [requiredWith, required, expressionWith, bind_assoc]
  refine (hx.2 _ (follows_links hj hk l)).bind ?_
  rintro o ⟨e, rfl, he⟩
  dsimp only
  rw [bind_assoc]
  refine budget_reads.bind fun n hn => ?_
  rw [bind_assoc]
  have := length_le_dropWhile_links text hj k l
  refine (climb_reads hj hk h hl (by omega) he).bind fun e' he' => ?_
  rw [pure_bind]
  exact Reads.pure he'

/-- An operand alone is an expression. -/
theorem requiredWith_single {s : Bytes} {Q : Expr → Prop} (hk : Ends k)
    (h : Reads v operand s (fun o => ∃ e, o = some e ∧ Q e) (k.dropWhile isSpace)) :
    Reads v (requiredWith operand) s Q (k.dropWhile isSpace) := by
  rw [requiredWith, required, expressionWith, bind_assoc]
  refine h.bind ?_
  rintro o ⟨e, rfl, he⟩
  dsimp only
  rw [bind_assoc]
  refine budget_reads.bind fun n hn => ?_
  cases n with
  | nil => cases hn
  | cons b n =>
    rw [climbWithin, bind_assoc, bind_assoc]
    refine (binaryOp?_ends hk).bind_eq ?_
    dsimp only
    rw [pure_bind, pure_bind]
    exact Reads.pure he

end Climbing

/-! ### Names and parentheses -/

/-- The identifier may name a variable in an expression: it is not `sizeof` and no word of the
vocabulary. -/
structure IsVariable (v : Vocabulary) (n : Bytes) : Prop where
  word : isWord n = true
  ne_sizeof : n ≠ ascii "sizeof"
  fresh : n ∉ v.modifiers ++ v.types

instance (v : Vocabulary) (n : Bytes) : Decidable (IsVariable v n) :=
  decidable_of_iff (isWord n = true ∧ n ≠ ascii "sizeof" ∧ n ∉ v.modifiers ++ v.types)
    ⟨fun h => ⟨h.1, h.2.1, h.2.2⟩, fun h => ⟨h.word, h.ne_sizeof, h.fresh⟩⟩

theorem head_of_isWord {n : Bytes} (h : isWord n = true) (r : Bytes) :
    (n ++ r).head?.any isIdentStart = true := by
  cases n with
  | nil => simp [isWord] at h
  | cons b n =>
    simp only [isWord, Bool.and_eq_true] at h
    simpa using h.1

section Operands
variable {operand : Parser (Option Expr)} {v : Vocabulary} {n r k s t u : Bytes}

theorem isSolid_of_isWord (hn : isWord n = true) : n.head?.any isSolid = true := by
  have h := head_of_isWord hn []
  rw [List.append_nil] at h
  exact head_any_mono h fun b hb => isSolid_of_isIdent b (isIdent_of_isIdentStart hb)

theorem prefixOps_miss_word (hn : isWord n = true) (hs : n ≠ ascii "sizeof")
    (hr : r.head?.any isIdent = false) :
    Reads v (firstAccepted PrefixOp.spelling PrefixOp.all) (n ++ r) (· = none) (n ++ r) := by
  refine firstAccepted_misses fun op _ => ?_
  have hsize : leads (ascii "sizeof") (n ++ r) = false := by
    rw [← Bool.not_eq_true, leads_word_iff (by decide) hn hr]
    exact fun h => hs h.symm
  have hhead := head_of_isWord hn r
  cases op with
  | sizeOf => exact hsize
  | _ => exact leads_of_class (by decide) hhead

theorem prefixOps_miss_paren :
    Reads v (firstAccepted PrefixOp.spelling PrefixOp.all) (ch '(' :: r) (· = none)
      (ch '(' :: r) :=
  firstAccepted_misses fun op _ => by cases op <;> rfl

theorem primary_name {p : Position} (hn : isWord n = true) (hi : r.head?.any isIdent = false)
    (hr : Settled (r.dropWhile isSpace)) :
    Reads v (primary operand p) (n ++ r) (· = some (.name n p)) (r.dropWhile isSpace) := by
  have hhead := head_of_isWord hn r
  have hclass : ∀ inClass : UInt8 → Bool, (∀ b, inClass b = true → isIdentStart b = false) →
      (n ++ r).head?.any inClass = false := by
    intro inClass hb
    cases hh : (n ++ r).head? with
    | none => rfl
    | some b =>
      rw [hh] at hhead
      rw [Option.any_some, ← Bool.not_eq_true]
      intro hc
      rw [Option.any_some, hb b hc] at hhead
      cases hhead
  have hstring : (n ++ r).head?.any (· == ch '"') = false :=
    hclass _ fun b hb => by rw [beq_iff_eq.mp hb]; rfl
  have hdigit : (n ++ r).head?.any isDigit = false := hclass _ isIdentStart_of_isDigit
  rw [primary]
  refine (accept_misses (leads_of_class (by decide) hhead)).bind_false ?_
  refine (accept_misses (leads_of_class (by decide) hhead)).bind_false ?_
  refine (acceptKeeping_misses (leads_of_class (by decide) hhead)).bind_false ?_
  refine test_reads.bind_eq ?_
  rw [hstring, if_neg (by simp)]
  refine test_reads.bind_eq ?_
  rw [hdigit, if_neg (by simp)]
  refine test_reads.bind_eq ?_
  rw [hhead, if_pos rfl]
  exact (identifier_reads rfl hn hi hr).map fun a ha => by rw [ha]

theorem primary_number {p : Position} {x : Binary64} {m : Nat} (hd : s.head?.any isDigit = true)
    (hl : Lexeme.number s = ⟨m, .ok x⟩) (hr : Settled ((s.drop m).dropWhile isSpace)) :
    Reads v (primary operand p) s (· = some (.number x p)) ((s.drop m).dropWhile isSpace) := by
  have hstring : s.head?.any (· == ch '"') = false := by
    cases s with
    | nil => rfl
    | cons b s =>
      rw [List.head?_cons, Option.any_some] at hd ⊢
      rw [← Bool.not_eq_true, beq_iff_eq]
      rintro rfl
      cases hd
  rw [primary]
  refine (accept_misses (leads_of_class (by decide) hd)).bind_false ?_
  refine (accept_misses (leads_of_class (by decide) hd)).bind_false ?_
  refine (acceptKeeping_misses (leads_of_class (by decide) hd)).bind_false ?_
  refine test_reads.bind_eq ?_
  rw [hstring, if_neg (by simp)]
  refine test_reads.bind_eq ?_
  rw [hd, if_pos rfl]
  exact (scan_read_reads hl hr).map fun a ha => by rw [ha]

/-- No declarator starts where no word of the vocabulary leads. -/
theorem typeStarts_misses (h : ∀ w ∈ v.modifiers ++ v.types, leads w s = false) :
    Reads v typeStarts s (· = false) s := by
  rw [typeStarts]
  refine get_reads.bind ?_
  intro st hst
  have hfind : ((v.modifiers ++ v.types).find? fun w => leads (id w) s) = none :=
    List.find?_eq_none.mpr fun w hw => by simp [h w hw]
  rw [hst]
  have hp := firstPeeked_reads (v := v) (w := id) (l := v.modifiers ++ v.types) (s := s)
    (by rw [hfind]; simp)
  rw [hfind] at hp
  exact hp.map fun a ha => by rw [ha]; rfl

/-- The text starts as an expression does: not with a blank, a closing parenthesis or a word of the
vocabulary, whatever follows. -/
structure Starts (v : Vocabulary) (s : Bytes) : Prop where
  solid : s.head?.any isSolid = true
  opened : s.head? ≠ some (ch ')')
  fresh : ∀ k : Bytes, k.head?.any isIdent = false → ∀ w ∈ v.modifiers ++ v.types,
    leads w (s ++ k) = false

theorem starts_name {n : Bytes} (hn : IsVariable v n) (hv : IdentifiersOnly v) : Starts v n where
  solid := isSolid_of_isWord hn.word
  opened h := by
    have := head_of_isWord hn.word []
    rw [List.append_nil, h] at this
    cases this
  fresh k hk w hw := by
    rw [← Bool.not_eq_true, leads_word_iff (hv w hw) hn.word hk]
    rintro rfl
    exact hn.fresh hw

theorem starts_cons {b : UInt8} (hb : isSolid b = true) (hi : isIdentStart b = false)
    (hc : b ≠ ch ')') (hv : IdentifiersOnly v) : Starts v (b :: s) where
  solid := hb
  opened h := hc (Option.some.inj h)
  fresh _ _ w hw := leads_of_isWord (hv w hw) hi

theorem Starts.append {b : UInt8} {r : Bytes} (h : Starts v s) (hb : isIdent b = false) :
    Starts v (s ++ b :: r) where
  solid := head_append_of_isSolid h.solid _
  opened := by
    have hs := h.solid
    have ho := h.opened
    cases s with
    | nil => cases hs
    | cons c s => exact ho
  fresh k _ w hw := by
    rw [List.append_assoc]
    exact h.fresh (b :: r ++ k) hb w hw

theorem parenthesized_reads {p : Position} {Q : Expr → Prop} (hs : Starts v s)
    (h : Reads v (requiredWith operand) (s ++ ch ')' :: r) Q (ch ')' :: r))
    (hr : Settled (r.dropWhile isSpace)) :
    Reads v (parenthesized operand p) (s ++ ch ')' :: r) Q (r.dropWhile isSpace) := by
  rw [parenthesized]
  refine (typeStarts_misses (hs.fresh (ch ')' :: r) rfl)).bind_false ?_
  refine h.bind fun e he => ?_
  refine (expect_reads (w := ascii ")") rfl (fun hw => by cases hw) hr).bind fun _ _ => ?_
  exact Reads.pure he

theorem primary_group {p : Position} {Q : Expr → Prop} (hs : Starts v s)
    (h : Reads v (requiredWith operand) (s ++ ch ')' :: r) Q (ch ')' :: r))
    (hr : Settled (r.dropWhile isSpace)) :
    Reads v (primary operand p) (ch '(' :: (s ++ ch ')' :: r)) (fun o => ∃ e, o = some e ∧ Q e)
      (r.dropWhile isSpace) := by
  have hsolid := head_append_of_isSolid hs.solid (ch ')' :: r)
  rw [primary]
  refine (accept_solid (w := ascii "(") rfl (fun hw => by cases hw) hsolid).bind_true ?_
  exact (parenthesized_reads hs h hr).map fun e he => ⟨e, rfl, he⟩

/-! ### Suffixes -/

/-- Behind an operand no suffix is found. -/
theorem suffixStep_stop {e : Expr} (hk : Follows k) :
    Reads v (suffixStep operand e) (k.dropWhile isSpace) (· = .inr e) (k.dropWhile isSpace) := by
  have hmiss : ∀ w ∈ suffixMarks, Reads v (accept w) (k.dropWhile isSpace) (· = false)
      (k.dropWhile isSpace) := fun w hw => accept_misses (hk.suffix w hw)
  rw [suffixStep]
  refine here_reads.bind fun p _ => ?_
  refine (hmiss (ascii "[") (by simp [suffixMarks])).bind_false ?_
  refine (hmiss (ascii "(") (by simp [suffixMarks])).bind_false ?_
  refine (hmiss (ascii "++") (by simp [suffixMarks])).bind_false ?_
  refine (hmiss (ascii "--") (by simp [suffixMarks])).bind_false ?_
  exact Reads.pure rfl

theorem iterate_suffixStep_stop {e : Expr} (hk : Follows k) {n : Bytes} (hn : 0 < n.length) :
    Reads v (iterateWithin (suffixStep operand) n e) (k.dropWhile isSpace) (· = e)
      (k.dropWhile isSpace) := by
  cases n with
  | nil => simp at hn
  | cons b n =>
    rw [iterateWithin_cons]
    refine (suffixStep_stop hk).bind_eq ?_
    exact Reads.pure rfl

theorem suffixes_stop {e : Expr} (hk : Follows k) :
    Reads v (suffixes operand e) (k.dropWhile isSpace) (· = e) (k.dropWhile isSpace) :=
  iterate_reads fun _ _ => iterate_suffixStep_stop hk (by omega)

/-- An operand without a prefix operator: a primary expression and its suffixes. -/
theorem operandStep_reads {Q R : Expr → Prop}
    (hpre : Reads v (firstAccepted PrefixOp.spelling PrefixOp.all) s (· = none) s)
    (hp : ∀ p, Reads v (primary operand p) s (fun o => ∃ e, o = some e ∧ Q e) t)
    (hs : ∀ e, Q e → Reads v (suffixes operand e) t R u) :
    Reads v (operandStep operand) s (fun o => ∃ e, o = some e ∧ R e) u := by
  rw [operandStep]
  refine here_reads.bind fun p _ => ?_
  refine hpre.bind_eq ?_
  refine (hp p).bind ?_
  rintro o ⟨e, rfl, he⟩
  exact (hs e he).map fun e' he' => ⟨e', rfl, he'⟩

theorem operandStep_name {R : Expr → Prop} (hn : IsVariable v n)
    (hi : k.head?.any isIdent = false) (hk : Settled (k.dropWhile isSpace))
    (hnext : ∀ e, e.unplaced = .name n .nowhere →
      Reads v (suffixes operand e) (k.dropWhile isSpace) R u) :
    Reads v (operandStep operand) (n ++ k) (fun o => ∃ e, o = some e ∧ R e) u := by
  refine operandStep_reads (Q := fun e => e.unplaced = .name n .nowhere)
    (prefixOps_miss_word hn.word hn.ne_sizeof hi) (fun p => ?_) hnext
  exact (primary_name hn.word hi hk).mono fun o ho => ⟨_, ho, rfl⟩

theorem readsOperand_name (hn : IsVariable v n) :
    ReadsOperand v (operandStep operand) n (.name n .nowhere) := by
  refine ⟨isSolid_of_isWord hn.word, fun k hk => ?_⟩
  refine operandStep_name hn hk.edge hk.settled fun e he => (suffixes_stop hk).mono ?_
  rintro _ rfl
  exact he

end Operands

/-! ### Whole texts -/

/-- A text without blanks at its front is what the parser starts with. -/
theorem start_at {s : Bytes} (file : Bytes) (v : Vocabulary) (hd : s.dropWhile isSpace = s)
    (hs : Settled s) : (start s file v).At s v := by
  obtain ⟨h₁, h₂⟩ := skip_spaces (s := ⟨Cursor.ofText s file, none⟩)
    (show Settled (s.dropWhile isSpace) by rw [hd]; exact hs)
  exact ⟨h₁.trans hd, h₂, rfl⟩

/-- An expression that is read up to the end of a text is the outcome for the text. -/
theorem parseExpression_of_reads {s file : Bytes} {v : Vocabulary} {Q : Expr → Prop}
    (hs : s.head?.any isSolid = true) (h : Reads v requiredExpression s Q []) :
    ∃ e, parseExpression s file v = .ok e ∧ Q e := by
  have hstart := start_at file v (dropWhile_isSpace_of_isSolid hs) (settled_of_isSolid hs)
  have hwhole : Reads v wholeExpression s Q [] := by
    rw [wholeExpression]
    refine h.bind fun e he => ?_
    refine atEnd_reads.bind_eq ?_
    exact Reads.pure he
  obtain ⟨e, st, he, hQ, hst⟩ := hwhole _ hstart
  refine ⟨e, ?_, hQ⟩
  rw [parseExpression, he, outcome, hst.fault]

/-- The parser of operands reads what every large enough level of nesting reads. -/
theorem readsOperand_operand {v : Vocabulary} {s : Bytes} {e : Expr}
    (h : ∀ n : Bytes, s.length < n.length → ReadsOperand v (operandWithin n) s e) :
    ReadsOperand v operand s e := by
  refine ⟨(h (0 :: s) (by simp)).1, fun k hk => ?_⟩
  refine budget_reads.bind fun n hn => ?_
  exact (h n (by rw [hn, List.length_append]; omega)).2 k hk

end MiniC.Grammar
