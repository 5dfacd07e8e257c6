import MiniC.Proofs.Grammar.Contract.Expression
import MiniC.Proofs.Grammar.Declarator
import MiniC.Proofs.Grammar.RoundTrip

/-!
# Reading printed declarators

A declarator that was read is printed so that it is read back (`declarator_printed`), provided that
the lengths in its array brackets are expressions over variables and binary operators. What was read
is `Declared`: arrays around pointers around a base type that is known, and where a modifier serves
as the base type, no word of the vocabulary stands in the place of the name.

The reader wraps the base type from the inside, first by stars and then by brackets from left to
right. The brackets of a type are read one layer at a time (`arrayStep_brackets`), by induction on
the type, with whatever the loop does behind them as a parameter.
-/

namespace MiniC

namespace TypeDesc

/-- The type inside its array brackets. -/
def stem : TypeDesc → TypeDesc
  | .array target _ => target.stem
  | .sizedArray target _ _ => target.stem
  | type => type

theorem isArray_stem (t : TypeDesc) : t.stem.isArray = false := by
  cases t with
  | base _ _ _ => rfl
  | pointer _ _ => rfl
  | array target _ => exact isArray_stem target
  | sizedArray target _ _ => exact isArray_stem target

theorem baseName_stem (t : TypeDesc) : t.stem.baseName = t.baseName := by
  cases t with
  | base _ _ _ => rfl
  | pointer _ _ => rfl
  | array target _ => exact baseName_stem target
  | sizedArray target _ _ => exact baseName_stem target

theorem baseText_stem (t : TypeDesc) : Printer.baseText t.stem = Printer.baseText t := by
  cases t with
  | base _ _ _ => rfl
  | pointer _ _ => rfl
  | array target _ => exact baseText_stem target
  | sizedArray target _ _ => exact baseText_stem target

/-- The stars of a type are the layers of its stem. -/
theorem layers_stem (t : TypeDesc) : Printer.layers t.stem = Printer.stars t := by
  cases t with
  | base _ _ _ => rfl
  | pointer _ _ => rfl
  | array target _ => exact layers_stem target
  | sizedArray target _ _ => exact layers_stem target

variable {v : Vocabulary}

theorem formed_stem (t : TypeDesc) (h : t.Formed v) : t.stem.Formed v := by
  cases t with
  | base _ _ _ => exact h
  | pointer _ _ => exact h
  | array target _ => exact formed_stem target h
  | sizedArray target _ _ => exact formed_stem target h.1

/-- The lengths in a type as the parser forms it are such expressions. -/
theorem formed_lengths (t : TypeDesc) (h : t.Formed v) : ∀ e ∈ t.lengths, e.Formed v := by
  cases t with
  | base _ _ _ => exact List.forall_mem_nil _
  | pointer target _ => exact formed_lengths target h.2
  | array target _ => exact formed_lengths target h
  | sizedArray target _ _ => exact List.forall_mem_cons.2 ⟨h.2, formed_lengths target h.1⟩

/-- **Without brackets, a type is its base type wrapped once for each star.** -/
theorem exists_base : ∀ {t : TypeDesc}, t.Formed v → t.isArray = false →
    ∃ modifiers, v.Knows ⟨modifiers, t.baseName⟩ ∧
      Printer.baseText t = modifiers.flatMap (fun m => m ++ [ch ' ']) ++ t.baseName ∧
      ∀ (ps : List Position) (p : Position), ps.length = Printer.layers t →
        (ps.foldl TypeDesc.pointer (TypeDesc.base modifiers t.baseName p)).unplaced = t.unplaced
  | .base modifiers name _, h, _ => by
    refine ⟨modifiers, h, rfl, fun ps p hps => ?_⟩
    rw [List.eq_nil_of_length_eq_zero hps]
    rfl
  | .pointer target q, h, _ => by
    obtain ⟨modifiers, hknown, htext, hwrap⟩ := exists_base h.2 h.1
    refine ⟨modifiers, hknown, htext, fun ps p hps => ?_⟩
    rcases List.eq_nil_or_concat' ps with rfl | ⟨before, last, rfl⟩
    · cases hps
    · have hlength : before.length = Printer.layers target := by
        rw [Printer.layers, List.length_append, List.length_singleton] at hps
        omega
      have hbefore := hwrap before p hlength
      rw [List.foldl_append, baseName]
      simp only [unplaced, List.foldl_cons, List.foldl_nil, relocate] at hbefore ⊢
      rw [hbefore]

end TypeDesc

theorem Vocabulary.Grown.proper {v : Vocabulary} (hv : v.Grown) : v.Proper := by
  intro hmem
  have hword := hv.identifiers [] hmem
  cases hword

theorem Vocabulary.Grown.mem_types {v : Vocabulary} (hv : v.Grown) {b : BaseType}
    (hb : v.Knows b) : b.name ∈ v.types := by
  rcases hb.1 with hmem | hint
  · exact hmem
  · rw [hint]
    exact hv.types _ (by decide)

namespace Grammar

open MiniC.Parser MiniC.Scan

/-! ### Lengths -/

/-- The expression is built by binary operators from names that are no words of the vocabulary. -/
inductive OverVariables (v : Vocabulary) : Expr → Prop where
  | name {n : Bytes} {p : Position} : n ∉ v.modifiers ++ v.types → OverVariables v (.name n p)
  | binary {op : BinaryOp} {left right : Expr} {p : Position} : OverVariables v left →
    OverVariables v right → OverVariables v (.binary op left right p)

/-- It is decided along the expression. -/
instance decidableOverVariables (v : Vocabulary) : ∀ e : Expr, Decidable (OverVariables v e)
  | .name n _ =>
    decidable_of_iff (n ∉ v.modifiers ++ v.types) ⟨.name, fun | .name h => h⟩
  | .binary _ left right _ =>
    have := decidableOverVariables v left
    have := decidableOverVariables v right
    decidable_of_iff (OverVariables v left ∧ OverVariables v right)
      ⟨fun h => .binary h.1 h.2, fun | .binary hl hr => ⟨hl, hr⟩⟩
  | .number _ _ => .isFalse (by rintro ⟨⟩)
  | .char _ _ => .isFalse (by rintro ⟨⟩)
  | .string _ _ => .isFalse (by rintro ⟨⟩)
  | .list _ _ => .isFalse (by rintro ⟨⟩)
  | .prefixed _ _ _ => .isFalse (by rintro ⟨⟩)
  | .suffixed _ _ _ => .isFalse (by rintro ⟨⟩)
  | .cast _ _ _ => .isFalse (by rintro ⟨⟩)
  | .sizeOfType _ _ => .isFalse (by rintro ⟨⟩)
  | .index _ _ _ => .isFalse (by rintro ⟨⟩)
  | .call _ _ _ => .isFalse (by rintro ⟨⟩)

/-- The parser `length` reads the print of the expression up to a closing bracket. -/
structure ReadsLength (v : Vocabulary) (length : Parser Expr) (e : Expr) : Prop where
  solid : (Printer.expr e).head?.any isSolid = true
  opened : (Printer.expr e).head? ≠ some (ch ']')
  reads : ∀ k, Reads v length (Printer.expr e ++ ch ']' :: k)
    (fun e' => e'.unplaced = e.unplaced) (ch ']' :: k)

section Length
variable {v : Vocabulary} {e : Expr}

theorem OverVariables.plain (h : OverVariables v e) (he : e.Formed v) : Plain v e := by
  induction h with
  | name hfresh => exact .name ⟨he.1, he.2, hfresh⟩
  | binary _ _ ihl ihr => exact .binary (ihl he.1) (ihr he.2)

/-- The print starts with a letter, an underscore or a parenthesis. -/
theorem OverVariables.head (h : OverVariables v e) (he : e.Formed v) :
    (Printer.expr e).head?.any (fun b => isIdentStart b || b == ch '(') = true := by
  induction h with
  | @name n p hfresh =>
    rw [Printer.expr]
    have hstart := head_of_isWord he.1 []
    rw [List.append_nil] at hstart
    exact head_any_mono hstart fun b hb => by rw [hb, Bool.true_or]
  | @binary op left right p hl hr ihl ihr =>
    have hleft := ihl he.1
    rw [expr_binary]
    cases hb : left.isBinary with
    | true =>
      rw [operandText_of_isBinary hb]
      rfl
    | false =>
      rw [operandText_of_not_isBinary hb]
      cases htext : Printer.expr left with
      | nil =>
        rw [htext] at hleft
        cases hleft
      | cons b s =>
        rw [htext] at hleft
        exact hleft

theorem OverVariables.readsLength (hv : IdentifiersOnly v) (h : OverVariables v e)
    (he : e.Formed v) : ReadsLength v requiredExpression e := by
  have hplain := h.plain he
  have hoperand : ∀ {d : Expr}, Plain v d → ReadsOperand v operand (operandText d) d.unplaced :=
    fun hd => readsOperand_operand (hd.readsBack hv).operand
  have hwhole : ReadsWhole v operand e := by
    cases h with
    | name _ => exact readsWhole_of_readsOperand rfl (hoperand hplain)
    | binary hl hr => exact readsWhole_binary (hoperand (hl.plain he.1)) (hoperand (hr.plain he.2))
  refine ⟨(hplain.starts hv).solid, fun hclose => ?_, fun k => ?_⟩
  · have hhead := h.head he
    rw [hclose] at hhead
    cases hhead
  · exact hwhole (ch ']' :: k) (ends_cons k rfl)

end Length

/-! ### Brackets -/

section Brackets
variable {v : Vocabulary} {length : Parser Expr} {k u : Bytes}

theorem arrayStep_empty (t : TypeDesc) (hk : Settled (k.dropWhile isSpace)) :
    Reads v (arrayStep length t) (ch '[' :: ch ']' :: k) (fun x => ∃ p, x = .inl (.array t p))
      (k.dropWhile isSpace) := by
  rw [arrayStep]
  refine (accept_solid (w := ascii "[") rfl (fun hw => by cases hw) rfl).bind_true ?_
  refine here_reads.bind fun p _ => ?_
  refine (accept_reads (w := ascii "]") rfl (fun hw => by cases hw) hk).bind_true ?_
  exact Reads.pure ⟨p, rfl⟩

theorem arrayStep_sized (t : TypeDesc) {e : Expr} (he : ReadsLength v length e)
    (hk : Settled (k.dropWhile isSpace)) :
    Reads v (arrayStep length t) (ch '[' :: (Printer.expr e ++ ch ']' :: k))
      (fun x => ∃ e' p, x = .inl (.sizedArray t e' p) ∧ e'.unplaced = e.unplaced)
      (k.dropWhile isSpace) := by
  have hsolid := head_append_of_isSolid he.solid (ch ']' :: k)
  have hmiss : leads (ascii "]") (Printer.expr e ++ ch ']' :: k) = false := by
    have hopened := he.opened
    have hne := he.solid
    refine leads_of_head_ne ?_
    cases htext : Printer.expr e with
    | nil => rw [htext] at hne; cases hne
    | cons b s => rw [htext] at hopened; exact hopened
  rw [arrayStep]
  refine (accept_solid (w := ascii "[") rfl (fun hw => by cases hw) hsolid).bind_true ?_
  refine here_reads.bind fun p _ => ?_
  refine (accept_misses hmiss).bind_false ?_
  refine (he.reads k).bind fun e' he' => ?_
  refine (expect_reads (w := ascii "]") rfl (fun hw => by cases hw) hk).bind fun _ _ => ?_
  exact Reads.pure ⟨e', p, rfl, he'⟩

theorem brackets_array_append (target : TypeDesc) (p : Position) (k : Bytes) :
    Printer.brackets (.array target p) ++ k =
      Printer.brackets target ++ ch '[' :: ch ']' :: k := by
  rw [Printer.brackets, List.append_assoc]
  rfl

theorem brackets_sizedArray_append (target : TypeDesc) (e : Expr) (p : Position) (k : Bytes) :
    Printer.brackets (.sizedArray target e p) ++ k =
      Printer.brackets target ++ ch '[' :: (Printer.expr e ++ ch ']' :: k) := by
  rw [Printer.brackets]
  simp

/-- **The brackets of a type are read one layer at a time,** and the loop goes on behind them. -/
theorem arrayStep_brackets {R : TypeDesc → Prop} : ∀ (t : TypeDesc),
    (∀ e ∈ t.lengths, ReadsLength v length e) → ∀ {k : Bytes}, k.dropWhile isSpace = k →
    Settled k →
    (∀ (t' : TypeDesc) (n : Bytes), t'.unplaced = t.unplaced → k.length < n.length →
      Reads v (iterateWithin (arrayStep length) n t') k R u) →
    ∀ (t' : TypeDesc) (n : Bytes), t'.unplaced = t.stem.unplaced →
      (Printer.brackets t ++ k).length < n.length →
      Reads v (iterateWithin (arrayStep length) n t') (Printer.brackets t ++ k) R u
  | .base _ _ _, _, k, _, _, hnext, t', n, ht', hn => by
    rw [Printer.brackets, List.nil_append] at hn ⊢
    exact hnext t' n ht' hn
  | .pointer _ _, _, k, _, _, hnext, t', n, ht', hn => by
    rw [Printer.brackets, List.nil_append] at hn ⊢
    exact hnext t' n ht' hn
  | .array target q, hl, k, hdrop, hk, hnext, t', n, ht', hn => by
    rw [brackets_array_append] at hn ⊢
    refine arrayStep_brackets target hl (k := ch '[' :: ch ']' :: k) rfl (settled_of_isSolid rfl)
      (fun t₁ n₁ ht₁ hn₁ => ?_) t' n ht' hn
    cases n₁ with
    | nil => cases hn₁
    | cons b n₁ =>
      have hstep : Reads v (arrayStep length t₁) (ch '[' :: ch ']' :: k) _ _ :=
        arrayStep_empty t₁ (by rwa [hdrop])
      rw [hdrop] at hstep
      rw [iterateWithin_cons]
      refine hstep.bind ?_
      rintro _ ⟨p, rfl⟩
      refine hnext (.array t₁ p) n₁ ?_ (by simp only [List.length_cons] at hn₁; omega)
      simp only [TypeDesc.unplaced, TypeDesc.relocate] at ht₁ ⊢
      rw [ht₁]
  | .sizedArray target e q, hl, k, hdrop, hk, hnext, t', n, ht', hn => by
    obtain ⟨he, hl⟩ := List.forall_mem_cons.1 hl
    rw [brackets_sizedArray_append] at hn ⊢
    refine arrayStep_brackets target hl (k := ch '[' :: (Printer.expr e ++ ch ']' :: k)) rfl
      (settled_of_isSolid rfl) (fun t₁ n₁ ht₁ hn₁ => ?_) t' n ht' hn
    cases n₁ with
    | nil => cases hn₁
    | cons b n₁ =>
      have hstep := arrayStep_sized t₁ he (k := k) (by rwa [hdrop])
      rw [hdrop] at hstep
      rw [iterateWithin_cons]
      refine hstep.bind ?_
      rintro _ ⟨e', p, rfl, he'⟩
      refine hnext (.sizedArray t₁ e' p) n₁ ?_ (by
        simp only [List.length_cons, List.length_append] at hn₁; omega)
      simp only [TypeDesc.unplaced, Expr.unplaced, TypeDesc.relocate] at ht₁ he' ⊢
      rw [ht₁, he']

/-- The brackets of a type at the end of a text. -/
theorem arrays_brackets {t t' : TypeDesc} (hl : ∀ e ∈ t.lengths, ReadsLength v length e)
    (ht' : t'.unplaced = t.stem.unplaced) :
    Reads v (arrays length t') (Printer.brackets t) (fun t'' => t''.unplaced = t.unplaced) [] := by
  refine iterate_reads fun n hn => ?_
  have hread := arrayStep_brackets (v := v) (u := [])
    (R := fun t'' => t''.unplaced = t.unplaced) t hl (k := []) rfl settled_nil
    (fun t₁ n₁ ht₁ hn₁ => ?_) t' n ht' (by rwa [List.append_nil])
  · rwa [List.append_nil] at hread
  · cases n₁ with
    | nil => cases hn₁
    | cons b n₁ =>
      rw [iterateWithin_cons, arrayStep, bind_assoc]
      refine (accept_misses (w := ascii "[") rfl).bind_eq ?_
      rw [if_neg (by simp), pure_bind]
      exact Reads.pure ht₁

end Brackets

/-! ### Declarators -/

/-- The brackets of a type, if there are any, start with one. -/
theorem head_brackets (t : TypeDesc) :
    Printer.brackets t = [] ∨ (Printer.brackets t).head? = some (ch '[') := by
  have hbehind : ∀ (s r : Bytes), s = [] ∨ s.head? = some (ch '[') →
      (s ++ ch '[' :: r).head? = some (ch '[') := by
    rintro s r (rfl | h)
    · rfl
    · rw [List.head?_append, h]
      rfl
  cases t with
  | base _ _ _ => exact .inl rfl
  | pointer _ _ => exact .inl rfl
  | array target _ => exact .inr (hbehind _ _ (head_brackets target))
  | sizedArray target _ _ => exact .inr (hbehind _ _ (head_brackets target))

/-- The parser goes on behind a name with the brackets of the type. -/
theorem settled_brackets (t : TypeDesc) :
    (Printer.brackets t).head?.any isIdent = false ∧
      (Printer.brackets t).dropWhile isSpace = Printer.brackets t ∧
      Settled (Printer.brackets t) := by
  rcases head_brackets t with h | h
  · rw [h]
    exact ⟨rfl, rfl, settled_nil⟩
  · have hsolid : (Printer.brackets t).head?.any isSolid = true := by rw [h]; rfl
    refine ⟨?_, dropWhile_isSpace_of_isSolid hsolid, settled_of_isSolid hsolid⟩
    rw [h]
    rfl

/-- The print of a declarator: words, stars, the name and the brackets. -/
theorem declarator_eq_wordsText {t : TypeDesc} {x base : Bytes} {modifiers : List Bytes}
    (hx : x ≠ [])
    (htext : Printer.baseText t = modifiers.flatMap (fun m => m ++ [ch ' ']) ++ base) :
    Printer.declarator t x = wordsText (modifiers ++ [base])
      ((List.replicate (Printer.stars t) (ascii "*")).flatten ++ (x ++ Printer.brackets t)) := by
  have hstars : (List.replicate (Printer.stars t) (ascii "*")).flatten =
      List.replicate (Printer.stars t) (ch '*') := List.flatten_replicate_singleton
  rw [hstars, wordsText, Printer.declarator, Printer.declaratorWith, htext]
  by_cases hzero : Printer.stars t = 0
  · simp [hzero, hx]
  · simp [hzero, hx]

section Declarator
variable {v : Vocabulary} {t : TypeDesc} {x : Bytes}

/-- **The print of a declarator is read back.** -/
theorem declarator_reads (hv : v.Grown) (h : Declared v .named (t, x))
    (hl : ∀ e ∈ t.lengths, OverVariables v e) :
    (Printer.declarator t x).head?.any isSolid = true ∧
      Reads v (declarator .named) (Printer.declarator t x)
        (fun d => d.1.unplaced = t.unplaced ∧ d.2 = x) [] := by
  have hx := h.isWord rfl
  have hne : x ≠ [] := by
    rintro rfl
    cases hx
  obtain ⟨modifiers, hknown, htext, hwrap⟩ :=
    TypeDesc.exists_base (t.formed_stem h.formed) t.isArray_stem
  rw [TypeDesc.baseName_stem] at hknown htext hwrap
  rw [TypeDesc.baseText_stem] at htext
  rw [TypeDesc.layers_stem] at hwrap
  obtain ⟨hedge, hdrop, hsettled⟩ := settled_brackets t
  have hname : (x ++ Printer.brackets t).head?.any isSolid = true :=
    head_append_of_isSolid (isSolid_of_isWord hx) _
  have hstar : ∀ s ∈ List.replicate (Printer.stars t) (ascii "*"), IsStar s :=
    fun s hs => .inl (List.eq_of_mem_replicate hs)
  -- where the base type is a modifier too, a star or a fresh name keeps it from going on
  have hmiss : t.baseName ∈ v.modifiers → ∀ w ∈ v.modifiers ++ v.types, leads w
      ((List.replicate (Printer.stars t) (ascii "*")).flatten ++ (x ++ Printer.brackets t)) =
        false := by
    intro hmod w hw
    have hword := hv.identifiers w hw
    cases hstars : Printer.stars t with
    | zero =>
      rw [List.replicate_zero, List.flatten_nil, List.nil_append, ← Bool.not_eq_true,
        leads_word_iff hword hx hedge]
      rintro rfl
      exact h.apart rfl hmod hstars hw
    | succ n => exact leads_of_isWord hword rfl
  have hwords : ∀ w ∈ modifiers ++ [t.baseName], isWord w = true := by
    refine List.forall_mem_append.2 ⟨fun w hw => ?_, List.forall_mem_singleton.2 ?_⟩
    · exact hv.identifiers w (List.mem_append_left _ (hknown.2 w hw))
    · exact hv.identifiers _ (List.mem_append_right _ (hv.mem_types hknown))
  rw [declarator_eq_wordsText hne htext, declarator, declaratorWith]
  refine ⟨solid_wordsText hwords (solid_stars hstar hname), ?_⟩
  refine here_reads.bind fun p _ => ?_
  refine (baseType_reads hv.identifiers (solid_stars hstar hname) hknown.2 (hv.mem_types hknown)
    hmiss).bind_eq ?_
  dsimp only
  refine (pointers_reads hname (leads_of_class (by decide) (head_of_isWord hx _)) hstar _).bind ?_
  rintro t' ⟨ps, hlength, rfl⟩
  rw [List.length_replicate] at hlength
  refine (identifier_reads rfl hx hedge (by rwa [hdrop])).bind_eq ?_
  rw [hdrop]
  refine (arrays_brackets (fun e he => ?_) (hwrap ps p hlength)).bind fun u hu => ?_
  · exact (hl e he).readsLength hv.identifiers (t.formed_lengths h.formed e he)
  · exact Reads.pure ⟨hu, rfl⟩

/-- **A declarator that was read is read back from its print,** up to positions and to the end of
the text. -/
theorem declarator_printed (hv : v.Grown) {st st' : ParserState} (hst : st.vocabulary = v)
    (hrun : (declarator .named).run st = .ok (t, x) st')
    (hl : ∀ e ∈ t.lengths, OverVariables v e) (file : Bytes) :
    ∃ t' st'', (declarator .named).run (start (Printer.declarator t x) file v) = .ok (t', x) st'' ∧
      t'.unplaced = t.unplaced ∧ st''.scanner.cursor.rest = [] ∧ st''.scanner.fault = none ∧
      st''.vocabulary = v := by
  have hdeclared : Declared v .named (t, x) :=
    ((declarator_forms (m := 0) hv.proper .named).of_run ⟨hst, .refl _⟩ hrun).1
  obtain ⟨hsolid, hreads⟩ := declarator_reads hv hdeclared hl
  have hstart := start_at file v (dropWhile_isSpace_of_isSolid hsolid) (settled_of_isSolid hsolid)
  obtain ⟨⟨t', x'⟩, st'', hrun', ⟨ht', rfl⟩, hat⟩ := hreads _ hstart
  exact ⟨t', st'', hrun', ht', hat.rest, hat.fault, hat.vocabulary⟩

end Declarator

/-- Where `const` names a type, the last of two of them is the base type, although both stand there
as modifiers. -/
theorem declarator_printed_shadowed :
    let v := Vocabulary.initial.addType (ascii "const")
    let text := ascii "unsigned const long /* signed */ const x [ n+m ] [] [k]"
    v.Grown ∧ ∃ t st', (declarator .named).run (start text [] v) = .ok (t, ascii "x") st' ∧
      Printer.declarator t (ascii "x") = ascii "unsigned const long const x[n + m][][k]" ∧
      (∀ e ∈ t.lengths, OverVariables v e) ∧
      ∃ t' st'', (declarator .named).run (start (Printer.declarator t (ascii "x")) [] v) =
          .ok (t', ascii "x") st'' ∧
        t'.unplaced = t.unplaced ∧ st''.scanner.cursor.rest = [] ∧ st''.scanner.fault = none ∧
        st''.vocabulary = v := by
  intro v text
  have hv : v.Grown := Vocabulary.grown_initial.addType (by decide)
  have hread : ((outcome ((declarator .named).run (start text [] v))).toOption.any fun d =>
      decide (d.2 = ascii "x" ∧
        Printer.declarator d.1 d.2 = ascii "unsigned const long const x[n + m][][k]" ∧
        ∀ e ∈ d.1.lengths, OverVariables v e)) = true := by decide +kernel
  obtain ⟨⟨t, x⟩, hd, hfacts⟩ := (Option.any_eq_true _ _).1 hread
  obtain ⟨rfl, htext, hl⟩ := of_decide_eq_true hfacts
  cases hout : outcome ((declarator .named).run (start text [] v)) with
  | error e =>
    rw [hout] at hd
    cases hd
  | ok d =>
    rw [hout] at hd
    cases hd
    obtain ⟨st', hrun, -⟩ := outcome_eq_ok.1 hout
    exact ⟨hv, t, st', hrun, htext, hl, declarator_printed hv rfl hrun hl []⟩

end Grammar

end MiniC
