import MiniC.Proofs.Grammar.Operand
import MiniC.Syntax.Printer

/-!
# Reading printed expressions

A `Plain` expression is built from names, the prefix operators `!`, `~`, `&` and `*`, the binary
operators, subscripts, calls and suffix operators; what has a subscript, a call or a suffix operator
has no prefix operator of its own. `parseExpression_expr`: a plain expression is read back from its
print.

As an operand, an expression is printed with parentheses if it is binary (`operandText`). What has
suffixes is read from the inside: `ReadsChain` says that the parser reads the expression and then
goes on with whatever suffixes follow, so that each suffix is one step (`ReadsChain.step`).
-/

namespace MiniC

/-- The expression has an operator in front. -/
def Expr.isPrefixed : Expr → Bool
  | .prefixed _ _ _ => true
  | _ => false

namespace Grammar

open MiniC.Parser MiniC.Scan

/-- The prefix operators that are signs of neither numbers nor steps and no words. -/
def tightOps : List PrefixOp := [.not, .bitNot, .addressOf, .deref]

/-- The expression has one reading in print. -/
inductive Plain (v : Vocabulary) : Expr → Prop where
  | name {n : Bytes} {p : Position} : IsVariable v n → Plain v (.name n p)
  | prefixed {op : PrefixOp} {e : Expr} {p : Position} : op ∈ tightOps → Plain v e →
    Plain v (.prefixed op e p)
  | binary {op : BinaryOp} {left right : Expr} {p : Position} : Plain v left → Plain v right →
    Plain v (.binary op left right p)
  | index {base i : Expr} {p : Position} : Plain v base → base.isPrefixed = false → Plain v i →
    Plain v (.index base i p)
  | call {callee : Expr} {arguments : List Expr} {p : Position} : Plain v callee →
    callee.isPrefixed = false → (∀ a ∈ arguments, Plain v a) → Plain v (.call callee arguments p)
  | suffixed {op : SuffixOp} {e : Expr} {p : Position} : Plain v e → e.isPrefixed = false →
    Plain v (.suffixed op e p)

/-! ### The print of an expression -/

/-- The print of an expression as an operand. -/
def operandText (e : Expr) : Bytes := Printer.parenthesized e.isBinary (Printer.expr e)

theorem operandText_of_isBinary {e : Expr} (h : e.isBinary = true) :
    operandText e = ch '(' :: (Printer.expr e ++ [ch ')']) := by
  rw [operandText, h]; rfl

theorem operandText_of_not_isBinary {e : Expr} (h : e.isBinary = false) :
    operandText e = Printer.expr e := by
  rw [operandText, h]; rfl

/-- The print of an operator between its operands. -/
def sign (op : BinaryOp) : Bytes :=
  if op = .member || op = .arrow then op.spelling else ch ' ' :: op.spelling ++ [ch ' ']

theorem joins_sign (op : BinaryOp) : Joins op (sign op) := by
  cases op with
  | member => exact .inr ⟨rfl, .inl rfl⟩
  | arrow => exact .inr ⟨rfl, .inr rfl⟩
  | _ => exact .inl rfl

theorem expr_binary (op : BinaryOp) (left right : Expr) (p : Position) :
    Printer.expr (.binary op left right p) =
      operandText left ++ linksText sign operandText [(op, right)] := by
  rw [Printer.expr, linksText, linksText, List.append_nil]; rfl

theorem expr_prefixed {op : PrefixOp} (h : op ∈ tightOps) (e : Expr) (p : Position) :
    Printer.expr (.prefixed op e p) = op.spelling ++ operandText e := by
  have hs : op ≠ .sizeOf := by rintro rfl; revert h; decide
  rw [Printer.expr, if_neg hs, List.append_nil]; rfl

theorem expr_index (base i : Expr) (p : Position) :
    Printer.expr (.index base i p) =
      operandText base ++ ch '[' :: (Printer.expr i ++ [ch ']']) := by
  rw [Printer.expr]; rfl

/-- The print of the arguments of a call. -/
def argumentsText (arguments : List Expr) : Bytes :=
  Bytes.join (ascii ", ") (Printer.exprs arguments)

theorem argumentsText_cons_cons (a b : Expr) (l : List Expr) :
    argumentsText (a :: b :: l) = Printer.expr a ++ ch ',' :: ch ' ' :: argumentsText (b :: l) := by
  simp only [argumentsText, Printer.exprs, Bytes.join, List.intercalate_cons_cons,
    List.append_assoc]
  rfl

theorem length_le_argumentsText : ∀ {l : List Expr},
    (∀ x ∈ l, (Printer.expr x).head?.any isSolid = true) → l.length ≤ (argumentsText l).length
  | [], _ => Nat.zero_le _
  | [a], h => by
    have ha := h a List.mem_cons_self
    rw [argumentsText, Printer.exprs, Printer.exprs, Bytes.join, List.intercalate_singleton]
    cases ht : Printer.expr a with
    | nil => rw [ht] at ha; cases ha
    | cons c r => simp
  | a :: b :: l, h => by
    have ih := length_le_argumentsText fun x hx => h x (List.mem_cons_of_mem a hx)
    rw [argumentsText_cons_cons]
    simp only [List.length_append, List.length_cons] at ih ⊢
    omega

theorem length_expr_le_argumentsText : ∀ {l : List Expr}, ∀ x ∈ l,
    (Printer.expr x).length ≤ (argumentsText l).length
  | [a], x, hx => by
    rw [List.mem_singleton.mp hx, argumentsText, Printer.exprs, Printer.exprs, Bytes.join,
      List.intercalate_singleton]
  | a :: b :: l, x, hx => by
    rw [argumentsText_cons_cons, List.length_append, List.length_cons, List.length_cons]
    rcases List.mem_cons.mp hx with rfl | hx
    · omega
    · have := length_expr_le_argumentsText x hx
      omega

theorem expr_call (callee : Expr) (arguments : List Expr) (p : Position) :
    Printer.expr (.call callee arguments p) =
      operandText callee ++ ch '(' :: (argumentsText arguments ++ [ch ')']) := by
  rw [Printer.expr]; rfl

theorem expr_suffixed (op : SuffixOp) (e : Expr) (p : Position) :
    Printer.expr (.suffixed op e p) = operandText e ++ op.spelling := by
  rw [Printer.expr]; rfl

/-! ### How the print of an expression starts -/

section Starts
variable {v : Vocabulary}

theorem starts_operandText {e : Expr} (h : Starts v (Printer.expr e)) (hv : IdentifiersOnly v) :
    Starts v (operandText e) := by
  cases he : e.isBinary with
  | true =>
    rw [operandText_of_isBinary he]
    exact starts_cons rfl rfl (by decide) hv
  | false => rwa [operandText_of_not_isBinary he]

/-- **The print of a plain expression starts as an expression does.** -/
theorem Plain.starts {e : Expr} (h : Plain v e) (hv : IdentifiersOnly v) :
    Starts v (Printer.expr e) := by
  induction h with
  | name hn => rw [Printer.expr]; exact starts_name hn hv
  | prefixed hop _ _ =>
    rw [expr_prefixed hop]
    simp only [tightOps, List.mem_cons, List.not_mem_nil, or_false] at hop
    obtain rfl | rfl | rfl | rfl := hop <;> exact starts_cons rfl rfl (by decide) hv
  | @binary op left right p _ _ ih _ =>
    have hs := starts_operandText ih hv
    rw [expr_binary]
    cases op <;> exact hs.append (by decide)
  | index _ _ _ ih _ => rw [expr_index]; exact (starts_operandText ih hv).append rfl
  | call _ _ _ ih _ => rw [expr_call]; exact (starts_operandText ih hv).append rfl
  | @suffixed op e p _ _ ih =>
    rw [expr_suffixed]
    cases op <;> exact (starts_operandText ih hv).append rfl

end Starts

/-! ### Expressions with suffixes -/

/-- The parser reads the print of the expression, where an expression may end. -/
def ReadsWhole (v : Vocabulary) (operand : Parser (Option Expr)) (e : Expr) : Prop :=
  ∀ k, Ends k → Reads v (requiredWith operand) (Printer.expr e ++ k)
    (fun e' => e'.unplaced = e.unplaced) (k.dropWhile isSpace)

/-- The parser reads the expression as an operand and goes on with the suffixes behind it. -/
def ReadsChain (v : Vocabulary) (operand : Parser (Option Expr)) (e : Expr) : Prop :=
  ∀ (k t : Bytes) (R : Expr → Prop), k.head?.any isIdent = false →
    Settled (k.dropWhile isSpace) →
    (∀ (e' : Expr) (n : Bytes), e'.unplaced = e.unplaced →
      (k.dropWhile isSpace).length < n.length →
      Reads v (iterateWithin (suffixStep operand) n e') (k.dropWhile isSpace) R t) →
    Reads v (operandStep operand) (operandText e ++ k) (fun o => ∃ e', o = some e' ∧ R e') t

section Chain
variable {v : Vocabulary} {operand : Parser (Option Expr)} {e : Expr}

theorem readsChain_name {n : Bytes} {p : Position} (hn : IsVariable v n) :
    ReadsChain v operand (.name n p) := by
  intro k t R hi hk hnext
  exact operandStep_name hn hi hk fun e he => iterate_reads fun m hm => hnext e m he hm

theorem readsChain_group (hb : e.isBinary = true) (hs : Starts v (Printer.expr e))
    (h : ReadsWhole v operand e) : ReadsChain v operand e := by
  intro k t R hi hk hnext
  have htext : operandText e ++ k = ch '(' :: (Printer.expr e ++ ch ')' :: k) := by
    rw [operandText_of_isBinary hb]; simp
  rw [htext]
  refine operandStep_reads prefixOps_miss_paren
    (fun p => primary_group hs (h (ch ')' :: k) (ends_cons k rfl)) hk) fun e' he' => ?_
  exact iterate_reads fun m hm => hnext e' m he' hm

/-- **A suffix is one step** behind the expression that it belongs to. -/
theorem ReadsChain.step {b : Expr} {c : UInt8} {r : Bytes} (hb : ReadsChain v operand b)
    (htext : operandText e = operandText b ++ c :: r) (hc : isSolid c = true)
    (hi : isIdent c = false)
    (hstep : ∀ (e' : Expr) (k : Bytes), e'.unplaced = b.unplaced → Settled (k.dropWhile isSpace) →
      Reads v (suffixStep operand e') (c :: (r ++ k))
        (fun x => ∃ e'', x = .inl e'' ∧ e''.unplaced = e.unplaced) (k.dropWhile isSpace)) :
    ReadsChain v operand e := by
  intro k t R _ hk hnext
  have hdrop : (c :: (r ++ k)).dropWhile isSpace = c :: (r ++ k) :=
    dropWhile_isSpace_of_isSolid hc
  rw [htext, List.append_assoc, List.cons_append]
  refine hb (c :: (r ++ k)) t R hi ?_ fun e' n he' hn => ?_
  · rw [hdrop]; exact settled_of_isSolid hc
  · rw [hdrop] at hn ⊢
    cases n with
    | nil => simp at hn
    | cons b n =>
      rw [iterateWithin_cons]
      refine (hstep e' k he' hk).bind ?_
      rintro _ ⟨e'', rfl, he''⟩
      refine hnext e'' n he'' ?_
      have := (List.dropWhile_sublist isSpace (l := k)).length_le
      simp only [List.length_cons, List.length_append] at hn
      omega

theorem ReadsChain.readsOperand (h : ReadsChain v operand e) (hs : Starts v (operandText e)) :
    ReadsOperand v (operandStep operand) (operandText e) e.unplaced := by
  refine ⟨hs.solid, fun k hk => h k _ _ hk.edge hk.settled fun e' n he' hn => ?_⟩
  refine (iterate_suffixStep_stop hk (by omega)).mono ?_
  rintro _ rfl
  exact he'

end Chain

/-! ### Suffixes -/

section Suffixes
variable {v : Vocabulary} {operand : Parser (Option Expr)}

theorem suffixStep_index {b i e' : Expr} {p : Position} {k : Bytes} (hi : Starts v (Printer.expr i))
    (h : ReadsWhole v operand i) (he' : e'.unplaced = b.unplaced)
    (hk : Settled (k.dropWhile isSpace)) :
    Reads v (suffixStep operand e') (ch '[' :: (Printer.expr i ++ [ch ']'] ++ k))
      (fun x => ∃ e'', x = .inl e'' ∧ e''.unplaced = (Expr.index b i p).unplaced)
      (k.dropWhile isSpace) := by
  rw [List.append_assoc]
  have hsolid := head_append_of_isSolid hi.solid ([ch ']'] ++ k)
  rw [suffixStep]
  refine here_reads.bind fun q _ => ?_
  refine (accept_solid (w := ascii "[") rfl (fun hw => by cases hw) hsolid).bind_true ?_
  refine (h (ch ']' :: k) (ends_cons k rfl)).bind fun i' hi' => ?_
  refine (expect_reads (w := ascii "]") rfl (fun hw => by cases hw) hk).bind fun _ _ => ?_
  refine Reads.pure ⟨_, rfl, ?_⟩
  simp only [Expr.unplaced, Expr.relocate] at he' hi' ⊢
  rw [he', hi']

theorem suffixStep_suffixed (op : SuffixOp) {b e' : Expr} {p : Position} {k : Bytes}
    (he' : e'.unplaced = b.unplaced) (hk : Settled (k.dropWhile isSpace)) :
    Reads v (suffixStep operand e') (op.spelling ++ k)
      (fun x => ∃ e'', x = .inl e'' ∧ e''.unplaced = (Expr.suffixed op b p).unplaced)
      (k.dropWhile isSpace) := by
  have hun : ∀ q, (Expr.suffixed op e' q).unplaced = (Expr.suffixed op b p).unplaced := by
    intro q
    simp only [Expr.unplaced, Expr.relocate] at he' ⊢
    rw [he']
  rw [suffixStep]
  refine here_reads.bind fun q _ => ?_
  cases op with
  | inc =>
    refine (accept_misses (w := ascii "[") rfl).bind_false ?_
    refine (accept_misses (w := ascii "(") rfl).bind_false ?_
    refine (accept_reads (w := ascii "++") rfl (fun hw => by cases hw) hk).bind_true ?_
    exact Reads.pure ⟨_, rfl, hun q⟩
  | dec =>
    refine (accept_misses (w := ascii "[") rfl).bind_false ?_
    refine (accept_misses (w := ascii "(") rfl).bind_false ?_
    refine (accept_misses (w := ascii "++") rfl).bind_false ?_
    refine (accept_reads (w := ascii "--") rfl (fun hw => by cases hw) hk).bind_true ?_
    exact Reads.pure ⟨_, rfl, hun q⟩

theorem starts_argumentsText {a : Expr} {l : List Expr} (ha : Starts v (Printer.expr a)) :
    Starts v (argumentsText (a :: l)) := by
  cases l with
  | nil => simpa [argumentsText, Printer.exprs, Bytes.join] using ha
  | cons b l =>
    rw [argumentsText_cons_cons]
    exact ha.append rfl

/-- The arguments that are left, behind those found before; each takes a round. -/
theorem argumentStep_reads {k : Bytes} : ∀ {l : List Expr} {a : Expr} {found : List Expr}
    {n : Bytes}, (∀ x ∈ a :: l, Starts v (Printer.expr x)) →
      (∀ x ∈ a :: l, ReadsWhole v operand x) → l.length < n.length →
      Reads v (iterateWithin (argumentStep operand) n found) (argumentsText (a :: l) ++ ch ')' :: k)
        (fun es => es.map Expr.unplaced = (found.reverse ++ a :: l).map Expr.unplaced)
        (ch ')' :: k)
  | l, a, found, [], _, _, hn => by simp at hn
  | [], a, found, c :: n, hs, hr, hn => by
    have htext : argumentsText [a] = Printer.expr a := by
      simp [argumentsText, Printer.exprs, Bytes.join]
    rw [iterateWithin_cons, argumentStep, htext, bind_assoc]
    refine (hr a List.mem_cons_self _ (ends_cons k rfl)).bind fun a' ha' => ?_
    rw [bind_assoc]
    refine (accept_misses (w := ascii ",") rfl).bind_eq ?_
    rw [if_neg (by simp), pure_bind]
    refine Reads.pure ?_
    rw [List.reverse_cons, List.map_append, List.map_append, List.map_singleton, ha',
      List.map_singleton]
  | b :: l, a, found, c :: n, hs, hr, hn => by
    have hb := starts_argumentsText (l := l) (hs b (by simp))
    have hsolid := head_append_of_isSolid hb.solid (ch ')' :: k)
    rw [iterateWithin_cons, argumentStep, argumentsText_cons_cons, bind_assoc, List.append_assoc]
    refine (hr a List.mem_cons_self _ (ends_cons _ rfl)).bind fun a' ha' => ?_
    rw [bind_assoc]
    refine (accept_spaced (w := ascii ",") hsolid).bind_eq ?_
    rw [if_pos rfl, pure_bind]
    refine (argumentStep_reads (fun x hx => hs x (List.mem_cons_of_mem _ hx))
      (fun x hx => hr x (List.mem_cons_of_mem _ hx)) (Nat.lt_of_succ_lt_succ hn)).mono
      fun es hes => ?_
    rw [hes]
    simp [ha']

theorem suffixStep_call {b e' : Expr} {l : List Expr} {p : Position} {k : Bytes}
    (hs : ∀ x ∈ l, Starts v (Printer.expr x)) (hr : ∀ x ∈ l, ReadsWhole v operand x)
    (he' : e'.unplaced = b.unplaced) (hk : Settled (k.dropWhile isSpace)) :
    Reads v (suffixStep operand e') (ch '(' :: (argumentsText l ++ [ch ')'] ++ k))
      (fun x => ∃ e'', x = .inl e'' ∧ e''.unplaced = (Expr.call b l p).unplaced)
      (k.dropWhile isSpace) := by
  have hun : ∀ es q, es.map Expr.unplaced = l.map Expr.unplaced →
      (Expr.call e' es q).unplaced = (Expr.call b l p).unplaced := by
    intro es q hes
    simp only [Expr.unplaced, Expr.relocate, Expr.relocateAll_eq_map] at he' hes ⊢
    rw [he']
    exact congrArg (Expr.call _ · _) hes
  rw [List.append_assoc, suffixStep]
  refine here_reads.bind fun q _ => ?_
  refine (accept_misses (w := ascii "[") rfl).bind_false ?_
  cases l with
  | nil =>
    refine (accept_solid (w := ascii "(") (r := ch ')' :: k) rfl (fun hw => by cases hw)
      rfl).bind_true ?_
    rw [arguments, bind_assoc]
    refine (accept_reads (w := ascii ")") rfl (fun hw => by cases hw) hk).bind_eq ?_
    rw [if_pos rfl, pure_bind]
    exact Reads.pure ⟨_, rfl, hun [] q rfl⟩
  | cons a l =>
    have ha := starts_argumentsText (l := l) (hs a List.mem_cons_self)
    have hsolid := head_append_of_isSolid ha.solid (ch ')' :: k)
    have hclose : leads (ascii ")") (argumentsText (a :: l) ++ ch ')' :: k) = false := by
      refine leads_of_head_ne ?_
      have hopened := ha.opened
      have hne := ha.solid
      cases ht : argumentsText (a :: l) with
      | nil => rw [ht] at hne; cases hne
      | cons c r => rw [ht] at hopened; exact hopened
    refine (accept_solid (w := ascii "(") rfl (fun hw => by cases hw) hsolid).bind_true ?_
    rw [arguments, bind_assoc]
    refine (accept_misses hclose).bind_eq ?_
    rw [if_neg (by simp), bind_assoc]
    refine (iterate_reads fun n hn => argumentStep_reads hs hr ?_).bind fun es hes => ?_
    · have := length_le_argumentsText (fun x hx => (hs x hx).solid)
      simp only [List.length_append, List.length_cons] at hn this
      omega
    · rw [bind_assoc]
      refine (expect_reads (w := ascii ")") rfl (fun hw => by cases hw) hk).bind fun _ _ => ?_
      rw [pure_bind]
      exact Reads.pure ⟨_, rfl, hun es q hes⟩

end Suffixes

/-! ### Whole expressions -/

section Whole
variable {v : Vocabulary} {operand : Parser (Option Expr)}

theorem readsWhole_of_readsOperand {e : Expr} (hb : e.isBinary = false)
    (h : ReadsOperand v operand (operandText e) e.unplaced) : ReadsWhole v operand e := by
  intro k hk
  have hclimb : Grouping.Climb 0 (.leaf e) [] (.leaf e) [] := .stop (by simp)
  have hw : Reads v (requiredWith operand) (operandText e ++ k)
      (fun e' => e'.unplaced = (Grouping.leaf e).expr Expr.unplaced) (k.dropWhile isSpace) :=
    requiredWith_reads joins_sign hk hclimb h (by simp)
  rwa [operandText_of_not_isBinary hb] at hw

theorem readsWhole_binary {op : BinaryOp} {left right : Expr} {p : Position}
    (hl : ReadsOperand v operand (operandText left) left.unplaced)
    (hr : ReadsOperand v operand (operandText right) right.unplaced) :
    ReadsWhole v operand (.binary op left right p) := by
  intro k hk
  have hclimb : Grouping.Climb 0 (.leaf left) [(op, right)]
      (.node op (.leaf left) (.leaf right)) [] :=
    .step (Nat.zero_le _) (.stop (by simp)) (.stop (by simp))
  have hw : Reads v (requiredWith operand) _
      (fun e' => e'.unplaced = (Grouping.node op (.leaf left) (.leaf right)).expr Expr.unplaced)
      _ :=
    requiredWith_reads joins_sign hk hclimb hl (by simpa using hr)
  rw [expr_binary, List.append_assoc]
  exact hw

theorem readsOperand_prefixed {op : PrefixOp} {e : Expr} {p : Position} (hop : op ∈ tightOps)
    (h : ReadsOperand v operand (operandText e) e.unplaced) :
    ReadsOperand v (operandStep operand) (operandText (.prefixed op e p))
      (Expr.prefixed op e p).unplaced := by
  have htext : operandText (.prefixed op e p) = op.spelling ++ operandText e :=
    (operandText_of_not_isBinary rfl).trans (expr_prefixed hop e p)
  rw [htext]
  simp only [tightOps, List.mem_cons, List.not_mem_nil, or_false] at hop
  refine ⟨by obtain rfl | rfl | rfl | rfl := hop <;> rfl, fun k hk => ?_⟩
  have hsolid := head_append_of_isSolid h.1 k
  have hfound : Reads v (firstAccepted PrefixOp.spelling PrefixOp.all)
      (op.spelling ++ (operandText e ++ k)) (· = some op) (operandText e ++ k) := by
    have hset : Settled ((operandText e ++ k).dropWhile isSpace) := by
      rw [dropWhile_isSpace_of_isSolid hsolid]; exact settled_of_isSolid hsolid
    have hf : Reads v (firstAccepted PrefixOp.spelling PrefixOp.all)
        (op.spelling ++ (operandText e ++ k)) (· = some op) _ :=
      firstAccepted_finds rfl (fun hw => by obtain rfl | rfl | rfl | rfl := hop <;> cases hw) hset
        (by obtain rfl | rfl | rfl | rfl := hop <;> rfl)
    rwa [dropWhile_isSpace_of_isSolid hsolid] at hf
  have hsize : op ≠ .sizeOf := by rintro rfl; revert hop; decide
  rw [List.append_assoc, operandStep]
  refine here_reads.bind fun q _ => ?_
  refine hfound.bind_eq ?_
  dsimp only
  rw [prefixedBy, if_neg hsize, pure_bind]
  dsimp only
  rw [required, bind_assoc, bind_assoc]
  refine (h.2 k hk).bind ?_
  rintro o ⟨e', rfl, he'⟩
  dsimp only
  rw [pure_bind, pure_bind]
  refine Reads.pure ⟨_, rfl, ?_⟩
  simp only [Expr.unplaced, Expr.relocate] at he' ⊢
  rw [he']

end Whole

/-! ### The round trip -/

/-- The print of the expression is read back at every level of nesting that the text leaves room
for: with the suffixes behind it, as an operand, and as a whole. -/
structure ReadsBack (v : Vocabulary) (e : Expr) : Prop where
  chain : e.isPrefixed = false → ∀ n : Bytes, (operandText e).length ≤ n.length →
    ReadsChain v (operandWithin n) e
  operand : ∀ n : Bytes, (operandText e).length < n.length →
    ReadsOperand v (operandWithin n) (operandText e) e.unplaced
  whole : ∀ n : Bytes, (Printer.expr e).length < n.length → ReadsWhole v (operandWithin n) e

section RoundTrip
variable {v : Vocabulary}

theorem readsOperand_of_chain {e : Expr} (hs : Starts v (operandText e))
    (h : ∀ n : Bytes, (operandText e).length ≤ n.length → ReadsChain v (operandWithin n) e)
    (n : Bytes) (hn : (operandText e).length < n.length) :
    ReadsOperand v (operandWithin n) (operandText e) e.unplaced := by
  cases n with
  | nil => simp at hn
  | cons b n => exact (h n (Nat.le_of_lt_succ hn)).readsOperand hs

theorem readsBack_of_chain {e : Expr} (hs : Starts v (Printer.expr e)) (hb : e.isBinary = false)
    (h : ∀ n : Bytes, (operandText e).length ≤ n.length → ReadsChain v (operandWithin n) e) :
    ReadsBack v e := by
  have htext := operandText_of_not_isBinary hb
  have hop := readsOperand_of_chain (htext ▸ hs) h
  exact ⟨fun _ => h, hop, fun n hn => readsWhole_of_readsOperand hb (hop n (htext ▸ hn))⟩

theorem readsBack_binary {op : BinaryOp} {left right : Expr} {p : Position}
    (hv : IdentifiersOnly v) (hs : Starts v (Printer.expr (.binary op left right p)))
    (hl : ReadsBack v left) (hr : ReadsBack v right) : ReadsBack v (.binary op left right p) := by
  have hwhole : ∀ n : Bytes, (Printer.expr (.binary op left right p)).length < n.length →
      ReadsWhole v (operandWithin n) (.binary op left right p) := by
    intro n hn
    rw [expr_binary, linksText, linksText] at hn
    simp only [List.length_append] at hn
    exact readsWhole_binary (hl.operand n (by omega)) (hr.operand n (by omega))
  have hchain : ∀ n : Bytes, (operandText (.binary op left right p)).length ≤ n.length →
      ReadsChain v (operandWithin n) (.binary op left right p) := by
    intro n hn
    rw [operandText_of_isBinary rfl] at hn
    simp only [List.length_cons, List.length_append] at hn
    exact readsChain_group rfl hs (hwhole n (by omega))
  exact ⟨fun _ => hchain, readsOperand_of_chain (starts_operandText hs hv) hchain, hwhole⟩

theorem readsBack_prefixed {op : PrefixOp} {e : Expr} {p : Position} (hop : op ∈ tightOps)
    (h : ReadsBack v e) : ReadsBack v (.prefixed op e p) := by
  have htext : operandText (.prefixed op e p) = Printer.expr (.prefixed op e p) :=
    operandText_of_not_isBinary rfl
  have hoperand : ∀ n : Bytes, (operandText (.prefixed op e p)).length < n.length →
      ReadsOperand v (operandWithin n) (operandText (.prefixed op e p))
        (Expr.prefixed op e p).unplaced := by
    intro n hn
    cases n with
    | nil => simp at hn
    | cons b n =>
      have hpos : 0 < op.spelling.length := by cases op <;> decide
      rw [htext, expr_prefixed hop, List.length_append, List.length_cons] at hn
      exact readsOperand_prefixed hop (h.operand n (by omega))
  refine ⟨fun hne => Bool.noConfusion hne, hoperand, fun n hn => ?_⟩
  exact readsWhole_of_readsOperand rfl (hoperand n (htext ▸ hn))

/-- **A plain expression is read back,** by induction on how it is built. -/
theorem Plain.readsBack (hv : IdentifiersOnly v) {e : Expr} (h : Plain v e) : ReadsBack v e := by
  induction h with
  | name hn =>
    exact readsBack_of_chain (Plain.name hn |>.starts hv) rfl fun n _ => readsChain_name hn
  | prefixed hop _ ih => exact readsBack_prefixed hop ih
  | binary hl hr ihl ihr => exact readsBack_binary hv ((hl.binary hr).starts hv) ihl ihr
  | @index base i p hb hpre hi ihb ihi =>
    have htext := (operandText_of_not_isBinary rfl).trans (expr_index base i p)
    refine readsBack_of_chain ((hb.index hpre hi).starts hv) rfl fun n hn => ?_
    rw [htext] at hn
    simp only [List.length_append, List.length_cons] at hn
    exact (ihb.chain hpre n (by omega)).step htext rfl rfl fun e' k he' hk =>
      suffixStep_index (hi.starts hv) (ihi.whole n (by omega)) he' hk
  | @call callee l p hc hpre hl ihc ihl =>
    have htext := (operandText_of_not_isBinary rfl).trans (expr_call callee l p)
    refine readsBack_of_chain ((hc.call hpre hl).starts hv) rfl fun n hn => ?_
    rw [htext] at hn
    simp only [List.length_append, List.length_cons] at hn
    refine (ihc.chain hpre n (by omega)).step htext rfl rfl fun e' k he' hk =>
      suffixStep_call (fun x hx => (hl x hx).starts hv) (fun x hx => ?_) he' hk
    have := length_expr_le_argumentsText x hx
    exact (ihl x hx).whole n (by omega)
  | @suffixed op e p he hpre ih =>
    have htext := (operandText_of_not_isBinary rfl).trans (expr_suffixed op e p)
    refine readsBack_of_chain ((he.suffixed hpre).starts hv) rfl fun n hn => ?_
    rw [htext, List.length_append] at hn
    have hchain := ih.chain hpre n (by omega)
    cases op with
    | inc => exact hchain.step htext rfl rfl fun e' k he' hk => suffixStep_suffixed .inc he' hk
    | dec => exact hchain.step htext rfl rfl fun e' k he' hk => suffixStep_suffixed .dec he' hk

/-- **A plain expression is what its print is read as,** up to positions. -/
theorem parseExpression_expr (hv : IdentifiersOnly v) {e : Expr} (he : Plain v e) (file : Bytes) :
    ∃ e', parseExpression (Printer.expr e) file v = .ok e' ∧ e'.unplaced = e.unplaced := by
  have hoperand : ∀ {d : Expr}, Plain v d →
      ReadsOperand v Grammar.operand (operandText d) d.unplaced :=
    fun hd => readsOperand_operand (hd.readsBack hv).operand
  have hwhole : ReadsWhole v Grammar.operand e := by
    cases he with
    | binary hl hr => exact readsWhole_binary (hoperand hl) (hoperand hr)
    | name hn => exact readsWhole_of_readsOperand rfl (hoperand (.name hn))
    | prefixed hop h => exact readsWhole_of_readsOperand rfl (hoperand (.prefixed hop h))
    | index hb hpre hi => exact readsWhole_of_readsOperand rfl (hoperand (.index hb hpre hi))
    | call hc hpre hl => exact readsWhole_of_readsOperand rfl (hoperand (.call hc hpre hl))
    | suffixed h hpre => exact readsWhole_of_readsOperand rfl (hoperand (.suffixed h hpre))
  refine parseExpression_of_reads (he.starts hv).solid ?_
  have h := hwhole [] ends_nil
  rwa [List.append_nil] at h

end RoundTrip

/-- In `(&&x->y[*p]) & f(a, !b)++` the first two ampersands are two operators. -/
theorem parseExpression_expr_ampersands :
    let var (s : String) : Expr := .name (ascii s) .nowhere
    let left : Expr := .binary .arrow
      (.prefixed .addressOf (.prefixed .addressOf (var "x") .nowhere) .nowhere)
      (.index (var "y") (.prefixed .deref (var "p") .nowhere) .nowhere) .nowhere
    let right : Expr := .suffixed .inc
      (.call (var "f") [var "a", .prefixed .not (var "b") .nowhere] .nowhere) .nowhere
    let e : Expr := .binary .bitAnd left right .nowhere
    IdentifiersOnly .initial ∧ Plain .initial e ∧
      Printer.expr e = ascii "(&&x->y[*p]) & f(a, !b)++" ∧
      ∃ e', parseExpression (Printer.expr e) [] .initial = .ok e' ∧ e'.unplaced = e.unplaced := by
  intro var left right e
  have hv : IdentifiersOnly .initial := by decide
  have hvar : ∀ s ∈ ["x", "y", "p", "f", "a", "b"], Plain .initial (var s) := by
    intro s hs
    have : IsVariable .initial (ascii s) := by revert s; decide
    exact .name this
  have hleft : Plain .initial left :=
    .binary (.prefixed (by decide) (.prefixed (by decide) (hvar "x" (by decide))))
      (.index (hvar "y" (by decide)) rfl (.prefixed (by decide) (hvar "p" (by decide))))
  have hright : Plain .initial right := by
    refine .suffixed (.call (hvar "f" (by decide)) rfl fun a ha => ?_) rfl
    rcases List.mem_cons.mp ha with rfl | ha
    · exact hvar "a" (by decide)
    · rw [List.mem_singleton.mp ha]
      exact .prefixed (by decide) (hvar "b" (by decide))
  exact ⟨hv, .binary hleft hright, by decide, parseExpression_expr hv (.binary hleft hright) []⟩

end Grammar

end MiniC
