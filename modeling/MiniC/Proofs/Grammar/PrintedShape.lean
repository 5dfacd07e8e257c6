import MiniC.Proofs.Grammar.Contract.Definition
import MiniC.Proofs.Grammar.Run
import MiniC.Proofs.Grammar.Unprinting.Type

/-!
# The print of an expression shows its shape

Legible expressions that the parser returns are told apart by their prints
(`parseExpression_print_injective`), since the reader of printed text gives each of them back.
Others are not: behind `(*p)++`, `- -x` and `1 .5` there are trees that print as `*p++`, `--x` and
`1.5` (`parseExpression_print_ambiguous`).
-/

namespace MiniC

namespace Unprinting

open Filter Grammar

section All

variable {v : Vocabulary}

mutual

/-- **A legible expression that the parser has formed is read back from its print.** -/
theorem reads_of_isLegible (hv : WordsOnly v) (e : Expr) (hf : e.Formed v)
    (hl : e.isLegible = true) : Reads e := by
  cases e with
  | number x p =>
    obtain ⟨s, n, hx⟩ := hf
    obtain ⟨hfinite, hsign⟩ := Scan.Lexeme.isFinite_of_number hx
    exact reads_number hfinite hsign
  | char c p => exact reads_char c p
  | string s p => exact reads_string s p
  | list items p => exact reads_list (reads_all hv items hf hl) p
  | name n p => exact reads_name hf.1 hf.2
  | prefixed op e p =>
    rw [Expr.isLegible, Bool.and_eq_true, Bool.not_eq_true'] at hl
    exact reads_prefixed (reads_of_isLegible hv e hf hl.1) (exists_lead e hf hl.1) hl.2 p
  | suffixed op e p =>
    rw [Expr.isLegible, Bool.and_eq_true] at hl
    exact reads_suffixed (reads_of_isLegible hv e hf hl.1) hl.2 op p
  | binary op l r p =>
    rw [Expr.isLegible, Bool.and_eq_true, Bool.and_eq_true, Bool.not_eq_true'] at hl
    exact reads_binary (reads_of_isLegible hv l hf.1 hl.1.1) (reads_of_isLegible hv r hf.2 hl.1.2)
      (exists_lead r hf.2 hl.1.2) hl.2 p
  | cast t e p =>
    rw [Expr.isLegible, Bool.and_eq_true] at hl
    exact reads_cast hv hf.1 (reads_lengths hv t hf.1 hl.1) (reads_of_isLegible hv e hf.2 hl.2) p
  | sizeOfType t p => exact reads_sizeOfType hv hf (reads_lengths hv t hf hl) p
  | index e i p =>
    rw [Expr.isLegible, Bool.and_eq_true, Bool.and_eq_true] at hl
    exact reads_index (reads_of_isLegible hv e hf.1 hl.1.1) hl.1.2
      (reads_of_isLegible hv i hf.2 hl.2) p
  | call e l p =>
    rw [Expr.isLegible, Bool.and_eq_true, Bool.and_eq_true] at hl
    exact reads_call (reads_of_isLegible hv e hf.1 hl.1.1) hl.1.2 (reads_all hv l hf.2 hl.2) p

theorem reads_lengths (hv : WordsOnly v) (t : TypeDesc) (hf : t.Formed v)
    (hl : t.isLegible = true) : ∀ e ∈ t.lengths, Reads e := by
  cases t with
  | base modifiers name p => exact List.forall_mem_nil _
  | pointer target p => exact reads_lengths hv target hf.2 hl
  | array target p => exact reads_lengths hv target hf hl
  | sizedArray target length p =>
    rw [TypeDesc.isLegible, Bool.and_eq_true] at hl
    exact List.forall_mem_cons.2
      ⟨reads_of_isLegible hv length hf.2 hl.2, reads_lengths hv target hf.1 hl.1⟩

theorem reads_all (hv : WordsOnly v) (l : List Expr) (hf : Expr.AllFormed v l)
    (hl : Expr.allLegible l = true) : ∀ e ∈ l, Reads e := by
  cases l with
  | nil => exact List.forall_mem_nil _
  | cons e l =>
    rw [Expr.allLegible, Bool.and_eq_true] at hl
    exact List.forall_mem_cons.2 ⟨reads_of_isLegible hv e hf.1 hl.1, reads_all hv l hf.2 hl.2⟩

end

end All

theorem wordsOnly_initial : WordsOnly .initial := by
  have hwords : ∀ w ∈ Vocabulary.initial.modifiers ++ Vocabulary.initial.types,
      isWord w = true ∧ w ≠ ascii "sizeof" := by decide
  have hint : ascii "int" ∈ Vocabulary.initial.types := by decide
  rintro b ⟨hname, hmodifiers⟩ w hw
  refine hwords w (List.mem_append.2 ?_)
  rcases List.mem_append.1 hw with hw | hw
  · exact .inl (hmodifiers w hw)
  · rw [List.mem_singleton.1 hw]
    rcases hname with hname | hname
    · exact .inr hname
    · exact .inr (hname ▸ hint)

/-- **What is read back has only one print.** -/
theorem Reads.unplaced_eq {e e' : Expr} (h : Reads e) (h' : Reads e')
    (htext : Printer.expr e = Printer.expr e') : e.unplaced = e'.unplaced := by
  obtain ⟨n, hn, hn'⟩ := ((h.asWhole .nil).and (h'.asWhole .nil)).exists
  rw [htext, hn'] at hn
  exact (congrArg Prod.fst (Option.some.inj hn)).symm

end Unprinting

namespace Grammar

open MiniC.Unprinting

theorem eq_ok_of_toOption {ε α : Type} {r : Except ε α} {a : α} (h : r.toOption = some a) :
    r = .ok a := by
  cases r with
  | error e => cases h
  | ok b => exact congrArg Except.ok (Option.some.inj h)

theorem formed_of_parseExpression {s file : Bytes} {v : Vocabulary} (hv : v.Proper) {e : Expr}
    (h : parseExpression s file v = .ok e) : e.Formed v := by
  obtain ⟨st, hrun, -⟩ := outcome_eq_ok.1 h
  exact ((wholeExpression_forms (m := 0) hv).of_run ⟨rfl, .refl _⟩ hrun).1

/-- **Legible expressions are told apart by their prints.** -/
theorem parseExpression_print_injective {s s' file file' : Bytes} {e e' : Expr}
    (h : parseExpression s file .initial = .ok e) (h' : parseExpression s' file' .initial = .ok e')
    (hl : e.isLegible = true) (hl' : e'.isLegible = true)
    (htext : Printer.expr e = Printer.expr e') : e.unplaced = e'.unplaced := by
  have hproper : Vocabulary.initial.Proper := by decide
  have he := reads_of_isLegible wordsOnly_initial e (formed_of_parseExpression hproper h) hl
  have he' := reads_of_isLegible wordsOnly_initial e' (formed_of_parseExpression hproper h') hl'
  exact he.unplaced_eq he' htext

/-- Blanks and superfluous parentheses are not printed. -/
theorem parseExpression_print_injective_cast :
    let s := ascii "((f)(x, - 1.50))++ ->b + (unsigned *[n+1]) sizeof p"
    let s' := ascii "(f(x,-1.5))++->b+((unsigned int*[ (n) + 1 ])(sizeof(p)))"
    ∃ e e', parseExpression s [] .initial = .ok e ∧ parseExpression s' [] .initial = .ok e' ∧
      e.isLegible = true ∧ e'.isLegible = true ∧ Printer.expr e = Printer.expr e' ∧
      e.unplaced = e'.unplaced := by
  intro s s'
  have hread : ((parseExpression s [] .initial).toOption.any fun e =>
      (parseExpression s' [] .initial).toOption.any fun e' =>
        decide (e.isLegible = true ∧ e'.isLegible = true ∧ Printer.expr e = Printer.expr e')) =
      true := by decide +kernel
  obtain ⟨e, he, hread⟩ := (Option.any_eq_true _ _).1 hread
  obtain ⟨e', he', hfacts⟩ := (Option.any_eq_true _ _).1 hread
  obtain ⟨hl, hl', htext⟩ := of_decide_eq_true hfacts
  have he := eq_ok_of_toOption he
  have he' := eq_ok_of_toOption he'
  exact ⟨e, e', he, he', hl, hl', htext, parseExpression_print_injective he he' hl hl' htext⟩

/-- The texts hold expressions that differ but have the same print. -/
def PrintAlike (s s' : Bytes) : Prop :=
  ∃ e e', parseExpression s [] .initial = .ok e ∧ parseExpression s' [] .initial = .ok e' ∧
    Printer.expr e = Printer.expr e' ∧ e.unplaced ≠ e'.unplaced

/-- Two expressions differ, wherever they stand, if one of them only is binary or if they have
different operators in front. -/
theorem PrintAlike.of_any {s s' : Bytes}
    (h : ((parseExpression s [] .initial).toOption.any fun e =>
      (parseExpression s' [] .initial).toOption.any fun e' =>
        decide (Printer.expr e = Printer.expr e' ∧
          (e.isBinary ≠ e'.isBinary ∨ e.prefixOp? ≠ e'.prefixOp?))) = true) :
    PrintAlike s s' := by
  have hplaced : ∀ e : Expr,
      e.unplaced.isBinary = e.isBinary ∧ e.unplaced.prefixOp? = e.prefixOp? := by
    intro e
    cases e <;> exact ⟨rfl, rfl⟩
  obtain ⟨e, he, h⟩ := (Option.any_eq_true _ _).1 h
  obtain ⟨e', he', h⟩ := (Option.any_eq_true _ _).1 h
  obtain ⟨htext, hdiffer⟩ := of_decide_eq_true h
  refine ⟨e, e', eq_ok_of_toOption he, eq_ok_of_toOption he', htext, fun heq => ?_⟩
  rw [← (hplaced e).1, ← (hplaced e').1, ← (hplaced e).2, ← (hplaced e').2, heq] at hdiffer
  rcases hdiffer with hdiffer | hdiffer <;> exact hdiffer rfl

/-- Each of the three conditions of legibility is needed. -/
theorem parseExpression_print_ambiguous :
    PrintAlike (ascii "(*p)++") (ascii "*p++") ∧ PrintAlike (ascii "- -x") (ascii "--x") ∧
      PrintAlike (ascii "1 .5") (ascii "1.5") := by
  refine ⟨.of_any ?_, .of_any ?_, .of_any ?_⟩ <;> decide +kernel

end Grammar

end MiniC
