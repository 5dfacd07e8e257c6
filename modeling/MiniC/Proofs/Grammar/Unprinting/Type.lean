import MiniC.Proofs.Grammar.DeclaratorRoundTrip
import MiniC.Proofs.Grammar.Unprinting.Expression

/-!
# Reading printed types back

A type is printed as words, stars and brackets, and read back from this (`eventually_typeName`); the
lengths in its brackets are expressions, read back by assumption. A cast is told from a binary
expression in parentheses: where a type stands, the reader finds a name with subscripts at most, and
no operator behind it (`eventually_not_group`).
-/

namespace MiniC.Unprinting

open Filter Grammar

/-! ### Words and stars -/

/-- What may stand behind the words of a type. -/
structure EndsWords (k : Bytes) : Prop where
  edge : k.head?.any isIdent = false
  word : (k.head? = some (ch ' ') && k.tail.head?.any isIdentStart) = false

theorem eventually_words {k : Bytes} (hk : EndsWords k) {name : Bytes} (hname : isWord name = true)
    (modifiers : List Bytes) (hm : ∀ w ∈ modifiers, isWord w = true) :
    ∀ᶠ n in atTop, words n (modifiers.flatMap (fun m => m ++ [ch ' ']) ++ (name ++ k)) =
      (modifiers ++ [name], k) := by
  induction modifiers with
  | nil =>
    refine eventually_of_succ (.of_forall fun n => ?_)
    rw [List.flatMap_nil, List.nil_append, words]
    simp only [takeWhile_isIdent_append hname hk.edge, dropWhile_isIdent_append hname hk.edge,
      hk.word]
    rfl
  | cons w modifiers ih =>
    obtain ⟨hw, hm⟩ := List.forall_mem_cons.1 hm
    set rest := modifiers.flatMap (fun m => m ++ [ch ' ']) ++ (name ++ k) with hrest
    have hstart : rest.head?.any isIdentStart = true := by
      cases modifiers with
      | nil => exact head_of_isWord hname k
      | cons m modifiers =>
        rw [hrest, List.flatMap_cons, List.append_assoc, List.append_assoc]
        exact head_of_isWord (hm m List.mem_cons_self) _
    have htext : (w :: modifiers).flatMap (fun m => m ++ [ch ' ']) ++ (name ++ k) =
        w ++ ch ' ' :: rest := by
      rw [hrest]
      simp
    rw [htext]
    refine eventually_of_succ ?_
    filter_upwards [ih hm] with n hn
    have hedge : (ch ' ' :: rest).head?.any isIdent = false := rfl
    have hmore : ((ch ' ' :: rest).head? = some (ch ' ') &&
        (ch ' ' :: rest).tail.head?.any isIdentStart) = true := by
      simpa using hstart
    rw [words]
    simp only [takeWhile_isIdent_append hw hedge, dropWhile_isIdent_append hw hedge, hmore]
    rw [if_pos trivial, List.tail_cons, hn]
    rfl

/-- The print of stars. -/
def starsText (n : ℕ) : Bytes := if n = 0 then [] else ch ' ' :: List.replicate n (ch '*')

theorem starsOf_starsText (n : ℕ) {k : Bytes} (hstar : k.head? ≠ some (ch '*'))
    (hspace : k.head? ≠ some (ch ' ')) : starsOf (starsText n ++ k) = (n, k) := by
  cases n with
  | zero =>
    have hnone : ¬ (ascii " *").isPrefixOf k = true := by
      rw [ List.isPrefixOf_iff_prefix]
      rintro ⟨t, rfl⟩
      exact hspace rfl
    exact if_neg hnone
  | succ n =>
    have hall : ∀ b ∈ List.replicate (n + 1) (ch '*'), (b == ch '*') = true := by
      intro b hb
      rw [List.eq_of_mem_replicate hb, beq_self_eq_true]
    have hstop : k.head?.any (· == ch '*') = false := by
      cases k with
      | nil => rfl
      | cons b k => exact beq_eq_false_iff_ne.2 fun h => hstar (h ▸ rfl)
    have htext : starsText (n + 1) ++ k = ch ' ' :: (List.replicate (n + 1) (ch '*') ++ k) := rfl
    have hfront : (ascii " *").isPrefixOf
        (ch ' ' :: (List.replicate (n + 1) (ch '*') ++ k)) = true := rfl
    rw [htext, starsOf, if_pos hfront, List.tail_cons, takeWhile_append_stop hall hstop,
      dropWhile_append_stop hall hstop, List.length_replicate]

theorem exists_stem {v : Vocabulary} (t : TypeDesc) (hf : t.Formed v) (ha : t.isArray = false) :
    ∃ modifiers name, v.Knows ⟨modifiers, name⟩ ∧
      Printer.baseText t = modifiers.flatMap (fun m => m ++ [ch ' ']) ++ name ∧
      t.unplaced = stemOf (modifiers ++ [name]) (Printer.layers t) := by
  cases t with
  | base modifiers name p =>
    refine ⟨modifiers, name, hf, rfl, ?_⟩
    simp [Printer.layers, stemOf, TypeDesc.unplaced, TypeDesc.relocate]
  | pointer target p =>
    obtain ⟨modifiers, name, hknown, htext, hstem⟩ := exists_stem target hf.2 hf.1
    refine ⟨modifiers, name, hknown, htext, ?_⟩
    rw [Printer.layers, stemOf, ← hstem]
    rfl
  | array target p => cases ha
  | sizedArray target length p => cases ha

/-- The print of a type without a name. -/
def typeText (t : TypeDesc) : Bytes := Printer.declaratorWith (Printer.brackets t) t []

theorem typeText_eq (t : TypeDesc) :
    typeText t = Printer.baseText t ++ (starsText (Printer.stars t) ++ Printer.brackets t) := by
  simp [typeText, Printer.declaratorWith, starsText]

/-- The brackets of a type are read one layer at a time. -/
theorem eventually_brackets {r : Option (TypeDesc × Bytes)} (t : TypeDesc)
    (hl : ∀ e ∈ t.lengths, Reads e) : ∀ {k : Bytes},
    (∀ᶠ n in atTop, brackets n t.unplaced k = r) →
      ∀ᶠ n in atTop, brackets n t.stem.unplaced (Printer.brackets t ++ k) = r := by
  cases t with
  | base modifiers name p => exact fun h => h
  | pointer target p => exact fun h => h
  | array target p =>
    intro k h
    rw [brackets_array_append]
    refine eventually_brackets target hl (eventually_of_succ ?_)
    filter_upwards [h] with n hn
    exact hn
  | sizedArray target length p =>
    intro k h
    obtain ⟨hlength, hl⟩ := List.forall_mem_cons.1 hl
    have hempty : ¬ (ascii "[]").isPrefixOf
        (ch '[' :: (Printer.expr length ++ ch ']' :: k)) = true := by
      rw [ List.isPrefixOf_iff_prefix]
      rintro ⟨t, ht⟩
      have htail := (List.cons.inj ht).2
      exact hlength.head_ne (.bracket k) .bracket (htail ▸ rfl)
    rw [brackets_sizedArray_append]
    refine eventually_brackets target hl (eventually_of_succ ?_)
    filter_upwards [h, hlength.asWhole (.bracket k)] with n hn hw
    rw [brackets, if_neg hempty, List.head?_cons, if_pos rfl, List.tail_cons, hw, closed_cons,
      Option.bind_some]
    exact hn

/-- What is read is no binary expression, and no operator follows it. -/
def IsSingle (p : Option (Expr × Bytes)) : Prop :=
  ∀ e r, p = some (e, r) → e.isBinary = false ∧ firstOf sign BinaryOp.all r = none

/-- The text gives an operand suffixes only. -/
def Singles (k : Bytes) : Prop :=
  ∀ᶠ n in atTop, ∀ e : Expr, e.isBinary = false → IsSingle (suffixes n e k)

theorem Stops.singles {k : Bytes} (hk : Stops k) (hs : firstOf sign BinaryOp.all k = none) :
    Singles k := by
  refine eventually_of_succ (.of_forall fun n e he e' r h => ?_)
  rw [hk n e] at h
  cases h
  exact ⟨he, hs⟩

/-- Behind a name the brackets of a type are read as subscripts, if at all. -/
theorem Singles.brackets (t : TypeDesc) (hl : ∀ e ∈ t.lengths, Reads e) : ∀ {k : Bytes},
    Singles k → Singles (Printer.brackets t ++ k) := by
  cases t with
  | base modifiers name p => exact fun h => h
  | pointer target p => exact fun h => h
  | array target p =>
    intro k _
    rw [brackets_array_append]
    refine Singles.brackets target hl (eventually_of_succ (.of_forall fun n e _ e' r h => ?_))
    rw [suffixes, List.head?_cons, if_pos rfl, List.tail_cons, whole_atMark (.bracket k)] at h
    cases h
  | sizedArray target length p =>
    intro k hk
    obtain ⟨hlength, hl⟩ := List.forall_mem_cons.1 hl
    rw [brackets_sizedArray_append]
    refine Singles.brackets target hl (eventually_of_succ ?_)
    filter_upwards [hk, hlength.asWhole (.bracket k)] with n hn hw e _
    rw [suffixes, List.head?_cons, if_pos rfl, List.tail_cons, hw, closed_cons, Option.bind_some]
    exact hn _ rfl

theorem AtMark.singles {k : Bytes} (hk : AtMark k) : Singles k := hk.stops.singles hk.firstOf_sign

theorem eventually_not_binary {s : Bytes} (h : ∀ᶠ n in atTop, IsSingle (operand n s)) :
    ∀ᶠ n in atTop, (closed (ch ')') (whole n s)).filter (·.1.isBinary) = none := by
  refine eventually_of_succ ?_
  filter_upwards [h] with n hn
  rw [whole]
  cases hop : operand n s with
  | none => rfl
  | some p =>
    obtain ⟨e, r⟩ := p
    obtain ⟨hb, hsign⟩ := hn e r hop
    rw [Option.bind_some, hsign, Option.filter_eq_none_iff]
    intro q hq
    rw [closed, Option.bind_some] at hq
    dsimp only at hq
    split_ifs at hq
    cases hq
    rw [hb]
    exact Bool.false_ne_true

/-- A sign starts with no space, or with a space and an operator. -/
theorem sign_eq (op : BinaryOp) : (∃ b r, sign op = b :: r ∧ b ≠ ch ' ') ∨
    ∃ b c r, sign op = ch ' ' :: b :: c :: r ∧ isIdentStart b = false ∧
      (b = ch '*' → c = ch ' ' ∨ c = ch '=') := by
  cases op with
  | member => exact .inl ⟨_, _, rfl, by decide⟩
  | arrow => exact .inl ⟨_, _, rfl, by decide⟩
  | _ => exact .inr ⟨_, _, _, rfl, rfl, by decide⟩

/-- Neither a word nor the stars of a type are an operator. -/
theorem firstOf_sign_none {b : UInt8} {s : Bytes} (hb : isIdentStart b = true ∨
    b = ch '*' ∧ s.head? ≠ some (ch ' ') ∧ s.head? ≠ some (ch '=')) :
    firstOf sign BinaryOp.all (ch ' ' :: b :: s) = none := by
  rw [firstOf, Option.map_eq_none_iff, List.find?_eq_none]
  intro op _ hop
  obtain ⟨t, ht⟩ := List.isPrefixOf_iff_prefix.1 hop
  rcases sign_eq op with ⟨b', r, hsign, hspace⟩ | ⟨b', c, r, hsign, hword, hstar⟩
  · rw [hsign] at ht
    exact hspace (List.cons.inj ht).1
  · rw [hsign] at ht
    obtain ⟨rfl, rfl⟩ := List.cons.inj (List.cons.inj ht).2
    rcases hb with hb | ⟨hb, hspace, hassign⟩
    · exact absurd (hword.symm.trans hb) (by decide)
    · rcases hstar hb with rfl | rfl
      · exact hspace rfl
      · exact hassign rfl

theorem singles_word {w k : Bytes} (hw : isWord w = true) : Singles (ch ' ' :: (w ++ k)) := by
  refine Stops.singles (fun n e => rfl) ?_
  obtain ⟨b, t, rfl⟩ : ∃ b t, w = b :: t := List.exists_cons_of_ne_nil (by rintro rfl; cases hw)
  exact firstOf_sign_none (.inl (Bool.and_eq_true_iff.1 hw).1)

theorem singles_starsText (n : ℕ) {k : Bytes}
    (hhead : k.head? = some (ch '[') ∨ k.head? = some (ch ')')) (hk : Singles k) :
    Singles (starsText n ++ k) := by
  cases n with
  | zero => exact hk
  | succ n =>
    refine Stops.singles (fun n e => rfl) (firstOf_sign_none (.inr ⟨rfl, ?_⟩))
    cases n with
    | zero =>
      show k.head? ≠ _ ∧ k.head? ≠ _
      rcases hhead with h | h <;> rw [h] <;> decide
    | succ n => exact ⟨by rintro ⟨⟩, by rintro ⟨⟩⟩

/-- Behind the stars of a type its brackets or the parenthesis follow. -/
theorem head_brackets_append (t : TypeDesc) (k : Bytes) :
    (Printer.brackets t ++ ch ')' :: k).head? = some (ch '[') ∨
      (Printer.brackets t ++ ch ')' :: k).head? = some (ch ')') := by
  rcases head_brackets t with h | h
  · rw [h]
    exact .inr rfl
  · rw [List.head?_append, h]
    exact .inl rfl

theorem endsWords_starsText (n : ℕ) {k : Bytes}
    (hk : k.head? = some (ch '[') ∨ k.head? = some (ch ')')) : EndsWords (starsText n ++ k) := by
  cases n with
  | zero =>
    rw [show starsText 0 ++ k = k from rfl]
    rcases hk with hk | hk <;> exact ⟨by rw [hk]; rfl, by rw [hk]; rfl⟩
  | succ n => exact ⟨rfl, rfl⟩

/-- The words of the types are identifiers other than `sizeof`. -/
def WordsOnly (v : Vocabulary) : Prop :=
  ∀ b, v.Knows b → ∀ w ∈ b.modifiers ++ [b.name], isWord w = true ∧ w ≠ ascii "sizeof"

section TypeName

variable {v : Vocabulary} {t : TypeDesc} (hv : WordsOnly v) (hf : t.Formed v)

include hv hf

/-- A type is printed as words, stars and brackets. -/
theorem exists_words : ∃ modifiers name,
    (∀ w ∈ modifiers ++ [name], isWord w = true ∧ w ≠ ascii "sizeof") ∧
    t.stem.unplaced = stemOf (modifiers ++ [name]) (Printer.stars t) ∧
    ∀ k, typeText t ++ k = modifiers.flatMap (fun m => m ++ [ch ' ']) ++
      (name ++ (starsText (Printer.stars t) ++ (Printer.brackets t ++ k))) := by
  obtain ⟨modifiers, name, hknown, hbase, hstem⟩ :=
    exists_stem t.stem (t.formed_stem hf) t.isArray_stem
  rw [t.baseText_stem] at hbase
  rw [t.layers_stem] at hstem
  refine ⟨modifiers, name, hv _ hknown, hstem, fun k => ?_⟩
  rw [typeText_eq, hbase]
  simp only [List.append_assoc]

variable (hl : ∀ e ∈ t.lengths, Reads e)

include hl

/-- **The print of a type is read back.** -/
theorem eventually_typeName (k : Bytes) :
    ∀ᶠ n in atTop, typeName n (typeText t ++ ch ')' :: k) = some (t.unplaced, ch ')' :: k) := by
  obtain ⟨modifiers, name, hw, hstem, htext⟩ := exists_words hv hf
  have hhead := head_brackets_append t k
  have hwords := eventually_words (endsWords_starsText (Printer.stars t) hhead)
    (hw name (by simp)).1 modifiers fun w hmem => (hw w (by simp [hmem])).1
  have hstars : starsOf (starsText (Printer.stars t) ++ (Printer.brackets t ++ ch ')' :: k)) =
      (Printer.stars t, Printer.brackets t ++ ch ')' :: k) := by
    refine starsOf_starsText _ ?_ ?_ <;> rcases hhead with h | h <;> rw [h] <;> decide
  have hbrackets := eventually_brackets (k := ch ')' :: k) t hl
    (eventually_of_succ (.of_forall fun n => rfl))
  rw [htext]
  refine eventually_of_succ ?_
  filter_upwards [hwords, hbrackets] with n hn hb
  rw [typeName, hn]
  dsimp only
  rw [hstars, ← hstem]
  exact hb

/-- In the parentheses of a cast no binary expression is read. -/
theorem eventually_not_group (k : Bytes) : ∀ᶠ n in atTop,
    (closed (ch ')') (whole n (typeText t ++ ch ')' :: k))).filter (·.1.isBinary) = none := by
  obtain ⟨modifiers, name, hw, -, htext⟩ := exists_words hv hf
  have hbehind : Singles (starsText (Printer.stars t) ++ (Printer.brackets t ++ ch ')' :: k)) :=
    singles_starsText _ (head_brackets_append t k)
      (Singles.brackets t hl (AtMark.parenthesis k).singles)
  have hedge := (endsWords_starsText (Printer.stars t) (head_brackets_append t k)).edge
  rw [htext]
  set rest := starsText (Printer.stars t) ++ (Printer.brackets t ++ ch ')' :: k)
  refine eventually_not_binary ?_
  cases modifiers with
  | nil =>
    obtain ⟨hword, hne⟩ := hw name (by simp)
    rw [List.flatMap_nil, List.nil_append]
    exact operand_of_word (P := IsSingle) hword hne hedge (hbehind.mono fun n hn => hn _ rfl)
  | cons m modifiers =>
    obtain ⟨hword, hne⟩ := hw m (by simp)
    have hnext : Singles
        (ch ' ' :: (modifiers.flatMap (fun m => m ++ [ch ' ']) ++ (name ++ rest))) := by
      cases modifiers with
      | nil =>
        rw [List.flatMap_nil, List.nil_append]
        exact singles_word (hw name (by simp)).1
      | cons m' modifiers =>
        rw [List.flatMap_cons, List.append_assoc, List.append_assoc]
        exact singles_word (hw m' (by simp)).1
    rw [List.flatMap_cons, List.append_assoc, List.append_assoc]
    exact operand_of_word (P := IsSingle) hword hne rfl (hnext.mono fun n hn => hn _ rfl)

theorem reads_sizeOfType (p : Position) : Reads (.sizeOfType t p) := by
  refine .of_chain rfl fun {k r} _ hr => ?_
  have htext : operandText (.sizeOfType t p) ++ k =
      ascii "sizeof(" ++ (typeText t ++ ch ')' :: k) := by
    rw [operandText_of_not_isBinary rfl, Printer.expr, typeText]
    simp
  rw [htext]
  refine operand_of_primary (P := (· = r)) rfl (show some (ch 's') ≠ some (ch '(') by decide)
    (eventually_of_succ ?_) hr
  filter_upwards [eventually_typeName hv hf hl k] with n hn
  rw [primary_sizeOfType, hn, closed_cons]
  rfl

theorem reads_cast {e : Expr} (he : Reads e) (p : Position) : Reads (.cast t e p) := by
  refine .of_operand rfl rfl fun {k} hk hs => ?_
  have htext : operandText (.cast t e p) ++ k =
      ch '(' :: (typeText t ++ ch ')' :: (operandText e ++ k)) := by
    rw [operandText_of_not_isBinary rfl, Printer.expr, typeText, operandText]
    simp
  rw [htext]
  refine eventually_of_succ ?_
  filter_upwards [eventually_not_group hv hf hl (operandText e ++ k),
    eventually_typeName hv hf hl (operandText e ++ k), he.asOperand ⟨hk.edge, hk.point⟩ hs]
    with n hg ht hn
  rw [operand, firstOf_prefixText_none rfl rfl]
  dsimp only
  rw [List.head?_cons, if_pos rfl, List.tail_cons, hg]
  dsimp only
  rw [ht, closed_cons, Option.bind_some, hn]
  rfl

end TypeName

end MiniC.Unprinting
