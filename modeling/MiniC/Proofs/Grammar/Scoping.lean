import MiniC.Proofs.Grammar.Contract.Definition

/-!
# Types are declared before they are used

In a program that is accepted, each base type is one of those known from the start, or an earlier
definition declares it, or it is the structure in whose definition it stands. The vocabulary at the
end records the declarations and nothing else (`parseProgram_scoped`).
-/

namespace MiniC

namespace Vocabulary

variable {v : Vocabulary} {w : Bytes}

theorem mem_types_inside {d : Definition} (h : w ∈ (v.inside d).types) :
    (∃ members p, d = .struct w members p) ∨ w ∈ v.types := by
  cases d with
  | struct name members p =>
    rcases mem_types_addType.1 h with ⟨rfl, -⟩ | h
    · exact .inl ⟨members, p, rfl⟩
    · exact .inr h
  | _ => exact .inr h

theorem modifiers_inside (v : Vocabulary) (d : Definition) :
    (v.inside d).modifiers = v.modifiers := by
  cases d <;> rfl

end Vocabulary

namespace Program

variable {p : Program} {k : Nat} {w : Bytes}

/-- The types known before the definition with the number `k`. -/
theorem mem_types_before {v : Vocabulary}
    (h : w ∈ ((p.take k).foldl Vocabulary.behind v).types) :
    w ∈ v.types ∨ ∃ j < k, ∃ d, p[j]? = some d ∧ d.declaredType? = some w := by
  rcases (Vocabulary.mem_types_foldl_behind _).1 h with ⟨d, hd, hw, -⟩ | hw
  · obtain ⟨j, hj⟩ := List.mem_iff_getElem?.1 hd
    rw [List.getElem?_take] at hj
    split_ifs at hj with hjk
    exact .inr ⟨j, hjk, d, hj, hw⟩
  · exact .inl hw

/-- A type that is declared in a program in scope has a name. -/
theorem Scoped.named {v : Vocabulary} (h : Scoped v p) {d : Definition} (hd : d ∈ p)
    (hw : d.declaredType? = some w) : w ≠ [] := by
  obtain ⟨k, hk⟩ := List.mem_iff_getElem?.1 hd
  exact (h k d hk).named w hw

end Program

namespace Grammar

open MiniC.Parser

/-- What is known of an accepted program and the vocabulary behind it. -/
theorem scoped_of_parseProgram {text file : Bytes} {v : Vocabulary} (hv : v.Proper) {p : Program}
    (h : (parseProgram text file v).1 = .ok p) :
    Program.Scoped v p ∧ (parseProgram text file v).2 = p.foldl Vocabulary.behind v := by
  obtain ⟨st, hst, -⟩ := outcome_eq_ok.1 h
  have hprogram := (program_ensures hv).of_run ⟨rfl, rfl⟩ hst
  refine ⟨hprogram.1, ?_⟩
  rw [parseProgram, hst]
  exact hprogram.2

/-- **Types are used only behind their declarations, and the vocabulary records the declarations.**
-/
theorem parseProgram_scoped {text file : Bytes} {p : Program}
    (h : (parseProgram text file .initial).1 = .ok p) :
    (∀ (k : Nat) (d : Definition), p[k]? = some d → ∀ b ∈ d.baseTypes,
      (b.name ∈ Vocabulary.primitiveTypes ∨
        (∃ j < k, ∃ d', p[j]? = some d' ∧ d'.declaredType? = some b.name) ∨
        ∃ members q, d = .struct b.name members q) ∧
      ∀ w ∈ b.modifiers, w ∈ Vocabulary.primitiveModifiers) ∧
    (∀ w, w ∈ (parseProgram text file .initial).2.types ↔
      w ∈ Vocabulary.primitiveTypes ∨ ∃ d ∈ p, d.declaredType? = some w) ∧
    (parseProgram text file .initial).2.modifiers = Vocabulary.initial.modifiers := by
  have htypes : ∀ w, w ∈ Vocabulary.initial.types ↔ w ∈ Vocabulary.primitiveTypes := by
    intro w
    exact ⟨(by decide : ∀ w ∈ Vocabulary.initial.types, w ∈ Vocabulary.primitiveTypes) w,
      (by decide : ∀ w ∈ Vocabulary.primitiveTypes, w ∈ Vocabulary.initial.types) w⟩
  have hmodifiers : ∀ w ∈ Vocabulary.initial.modifiers, w ∈ Vocabulary.primitiveModifiers := by
    decide
  obtain ⟨hscoped, hfinal⟩ := scoped_of_parseProgram (by decide) h
  refine ⟨fun k d hd b hb => ?_, fun w => ?_, ?_⟩
  · obtain ⟨hname, hwords⟩ := (hscoped k d hd).known b hb
    constructor
    · rcases hname with hname | hint
      · rcases Vocabulary.mem_types_inside hname with hself | hname
        · exact .inr (.inr hself)
        · rcases Program.mem_types_before hname with hname | hbefore
          · exact .inl ((htypes _).1 hname)
          · exact .inr (.inl hbefore)
      · rw [hint]
        exact .inl (by decide)
    · intro w hw
      have hmem := hwords w hw
      rw [Vocabulary.modifiers_inside, Vocabulary.modifiers_foldl_behind] at hmem
      exact hmodifiers w hmem
  · rw [hfinal, Vocabulary.mem_types_foldl_behind, htypes, or_comm]
    refine or_congr_right ⟨?_, ?_⟩
    · rintro ⟨d, hd, hw, -⟩
      exact ⟨d, hd, hw⟩
    · rintro ⟨d, hd, hw⟩
      exact ⟨d, hd, hw, hscoped.named hd hw⟩
  · rw [hfinal, Vocabulary.modifiers_foldl_behind]

/-- A structure that points to itself, and a function whose type and parameters are declared. -/
theorem parseProgram_scoped_list :
    let text := ascii "struct s \x7b s *next; \x7d typedef unsigned t; t f(s *x) \x7b x; \x7d"
    ∃ p, (parseProgram text [] .initial).1 = .ok p ∧
      p.map (fun d => d.baseTypes.map fun b => b.name) =
        [[ascii "s"], [ascii "int"], [ascii "t", ascii "s"]] ∧
      (∀ (k : Nat) (d : Definition), p[k]? = some d → ∀ b ∈ d.baseTypes,
        (b.name ∈ Vocabulary.primitiveTypes ∨
          (∃ j < k, ∃ d', p[j]? = some d' ∧ d'.declaredType? = some b.name) ∨
          ∃ members q, d = .struct b.name members q) ∧
        ∀ w ∈ b.modifiers, w ∈ Vocabulary.primitiveModifiers) ∧
      (∀ w, w ∈ (parseProgram text [] .initial).2.types ↔
        w ∈ Vocabulary.primitiveTypes ∨ ∃ d ∈ p, d.declaredType? = some w) ∧
      (parseProgram text [] .initial).2.modifiers = Vocabulary.initial.modifiers := by
  intro text
  have hnames : ((parseProgram text [] .initial).1.toOption.map fun p =>
      p.map fun d => d.baseTypes.map fun b => b.name) =
        some [[ascii "s"], [ascii "int"], [ascii "t", ascii "s"]] := by
    decide +kernel
  cases h : (parseProgram text [] .initial).1 with
  | error e =>
    rw [h] at hnames
    cases hnames
  | ok p =>
    rw [h] at hnames
    exact ⟨p, rfl, Option.some.inj hnames, parseProgram_scoped h⟩

end Grammar

end MiniC
