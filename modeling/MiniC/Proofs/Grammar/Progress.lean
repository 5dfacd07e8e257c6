import MiniC.Proofs.Grammar.Contract.Definition

/-!
# Parsers make progress

A parser that gives a node has taken a byte at least, and one that finds no expression is still
where it started. Hence no loop and no nesting takes more rounds than there are bytes, and every
text is read to a tree or an error. `parser_progress` collects this from the contracts of the
parsers. The words of the vocabulary must not be empty, since an empty one would stand everywhere.
-/

namespace MiniC.Grammar

open MiniC.Parser Scan

variable {α : Type}

/-- The run ends with a value, or because the text is not what was expected. -/
def Concludes (p : Parser α) (st : ParserState) : Prop :=
  (∃ a st', p.run st = .ok a st') ∨ ∃ e st', p.run st = .error (.mismatch e) st'

/-- The run ends, and if it gives a value, the cursor has moved on. -/
def Advances (p : Parser α) (st : ParserState) : Prop :=
  Concludes p st ∧ ∀ a st', p.run st = .ok a st' →
    st.scanner.cursor.index < st'.scanner.cursor.index

/-- The run ends, and if it gives a value, the cursor has moved on; if there is none, the cursor is
just as before. -/
def AdvancesIfAny (p : Parser (Option α)) (st : ParserState) : Prop :=
  Concludes p st ∧
    (∀ a st', p.run st = .ok (some a) st' →
      st.scanner.cursor.index < st'.scanner.cursor.index) ∧
    ∀ st', p.run st = .ok none st' → st'.scanner.cursor = st.scanner.cursor

section Contract
variable {p : Parser α} {st : ParserState}

theorem concludes_of_ensures {P : Assertion} {R : α → Assertion} (h : Ensures P p R)
    (hst : P st.vocabulary st.scanner.cursor) : Concludes p st := by
  rcases h st hst with ⟨a, st', hrun, -⟩ | hmismatch
  · exact .inl ⟨a, st', hrun⟩
  · exact .inr hmismatch

theorem advances_of_ensures {R : α → Assertion}
    (h : Ensures (At st.vocabulary st.scanner.cursor) p R)
    (hR : ∀ a v c, R a v c → st.scanner.cursor.Moves 1 c) : Advances p st := by
  refine ⟨concludes_of_ensures h ⟨rfl, rfl⟩, fun a st' hrun => ?_⟩
  exact (hR a _ _ (h.of_run ⟨rfl, rfl⟩ hrun)).index

theorem advancesIfAny_of_finds {q : Parser (Option α)} {A : α → Prop}
    (h : Finds st.vocabulary (st.scanner.cursor.rest.length + 1) q A) : AdvancesIfAny q st := by
  have hq := h (Nat.lt_succ_self _)
  refine ⟨concludes_of_ensures hq ⟨rfl, rfl⟩, fun a st' hrun => ?_, fun st' hrun => ?_⟩
  · exact (hq.of_run ⟨rfl, rfl⟩ hrun).2.2.index
  · exact (hq.of_run ⟨rfl, rfl⟩ hrun).2

end Contract

/-- **Every parser makes progress, and every text is read to a tree or an error.** The last two runs
are those behind `parseProgram` and `parseExpression`. -/
theorem parser_progress {v : Vocabulary} (hv : v.Proper) :
    (∀ st : ParserState, st.vocabulary = v →
      Advances definition st ∧ Advances statement st ∧ AdvancesIfAny operand st ∧
        (∀ p, AdvancesIfAny (primary operand p) st) ∧ AdvancesIfAny expression st) ∧
    ∀ text file, Concludes program (start text file v) ∧
      Concludes wholeExpression (start text file v) := by
  constructor
  · rintro st rfl
    refine ⟨?_, ?_, ?_, fun p => ?_, ?_⟩
    · exact advances_of_ensures (definition_ensures hv) fun _ _ _ hd => hd.2.2
    · exact advances_of_ensures (statement_walks (m := 0) hv).at_of_behind fun _ _ _ hs => hs.2.2
    · exact advancesIfAny_of_finds (operand_finds hv)
    · exact advancesIfAny_of_finds (primary_finds (operand_finds hv) hv p)
    · exact advancesIfAny_of_finds (expression_finds hv)
  · intro text file
    refine ⟨concludes_of_ensures (program_ensures hv) ⟨rfl, rfl⟩, ?_⟩
    exact concludes_of_ensures (wholeExpression_forms (m := 0) hv) ⟨rfl, .refl _⟩

/-- A statement in front of a stray parenthesis, and a text that is no program. -/
theorem parser_progress_assignment :
    let st := start (ascii "x = 1; ) y") [] .initial
    Vocabulary.initial.Proper ∧
      (∃ s st', statement.run st = .ok s st' ∧
        st.scanner.cursor.index < st'.scanner.cursor.index) ∧
      AdvancesIfAny operand (start (ascii ") y") [] .initial) ∧
      Concludes program (start (ascii "struct \x7b (((") [] .initial) := by
  intro st
  have hv : Vocabulary.initial.Proper := by decide
  have hok : (outcome (statement.run st)).isOk = true := by decide +kernel
  refine ⟨hv, ?_, ((parser_progress hv).1 _ rfl).2.2.1, ((parser_progress hv).2 _ _).1⟩
  cases h : outcome (statement.run st) with
  | error e =>
    rw [h] at hok
    cases hok
  | ok s =>
    obtain ⟨st', hrun, -⟩ := outcome_eq_ok.1 h
    exact ⟨s, st', hrun, ((parser_progress hv).1 st rfl).2.1.2 s st' hrun⟩

end MiniC.Grammar
