import MiniC.Proofs.Grammar.Contract.Expression

/-!
# Contracts of statements and definitions

A statement takes a byte at least and uses known types only. A definition does so under the
vocabulary in force inside it, and leaves the vocabulary behind it (`definition_ensures`). So a
program is read with each of its definitions in scope of the ones before, and its text decides
whether it is accepted: the loops and levels of the parser never run out (`program_ensures`).
-/

namespace MiniC.Grammar

open MiniC.Parser Scan

variable {v : Vocabulary} {o c : Cursor} {m n : Nat}

/-! ### Parts of statements -/

theorem expressionUpTo_walks (hv : v.Proper) {word : Bytes} (hw : word ≠ []) :
    Walks v o m (expressionUpTo word) (m + 1) fun e => v.KnowsAll (Expr.baseTypes? e) := by
  refine (expression_finds (n := o.rest.length + 1) hv).bind (by omega) (fun e he => ?_) ?_
  · refine (expect_walks hw).bind fun _ _ => ?_
    exact Walks.pure (a := some e) he (by omega)
  · refine (expect_walks hw).bind fun _ _ => ?_
    exact Walks.pure (a := none) Vocabulary.knowsAll_nil (Nat.le_refl _)

theorem condition_walks (hv : v.Proper) :
    Walks v o m condition (m + 1) fun e => v.KnowsAll e.baseTypes := by
  refine (expect_walks (by decide)).bind fun _ _ => ?_
  refine (requiredExpression_walks hv).bind fun e he => ?_
  exact (expect_walks (by decide)).bind fun _ _ => Walks.pure he (by omega)

theorem initialValue_walks (hv : v.Proper) :
    Walks v o m initialValue (m + 1) fun e => v.KnowsAll (Expr.baseTypes? e) := by
  refine (accept_behind (by decide)).cond ?_ ?_
  · refine (requiredExpression_walks hv).bind fun e he => ?_
    refine (expect_walks (by decide)).bind fun _ _ => ?_
    exact Walks.pure (a := some e) he (by omega)
  · refine (expect_walks (by decide)).bind fun _ _ => ?_
    exact Walks.pure (a := none) Vocabulary.knowsAll_nil (Nat.le_refl _)

/-! ### Statements -/

section Statement
variable {statement : Parser Stmt} (hs : Takes v n statement fun s => v.KnowsAll s.baseTypes)

include hs

theorem bodyWith_takes :
    Takes v n (bodyWith statement) fun l => v.KnowsAll (Stmt.baseTypesAll l) := by
  intro o m hm
  refine (expect_walks (by decide)).bind fun _ _ => ?_
  refine Walks.bind (n := m + 1) (A := fun l => ∀ s ∈ l, v.KnowsAll (Stmt.baseTypes s)) ?_
    fun l hl => ?_
  · refine iterate_walks (A := fun l => ∀ s ∈ l, v.KnowsAll (Stmt.baseTypes s))
      (fun c l hc hl => ?_) (List.forall_mem_nil _)
    refine atEnd_ensures.fork (done (forall_mem_reverse hl)) ?_
    refine (peek_ensures _).fork (done (forall_mem_reverse hl)) ?_
    refine (hs (by omega)).bind fun s hs' => ?_
    exact again (List.forall_mem_cons.2 ⟨hs', hl⟩) (by omega)
  · refine (expect_walks (by decide)).bind fun _ _ => ?_
    exact Walks.pure (Vocabulary.knowsAll_statements.2 hl) (by omega)

variable (hv : v.Proper) (p : Position)

include hv

theorem ifWith_takes : Takes v n (ifWith statement p) fun s => v.KnowsAll s.baseTypes := by
  intro o m hm
  refine (condition_walks hv).bind fun e he => ?_
  refine (bodyWith_takes hs (by omega)).bind fun l hl => ?_
  refine (accept_behind (by decide)).cond ?_ ?_
  · refine (bodyWith_takes hs (by omega)).bind fun l' hl' => Walks.pure ?_ (by omega)
    exact Vocabulary.knowsAll_append.2 ⟨he, Vocabulary.knowsAll_append.2 ⟨hl, hl'⟩⟩
  · exact Walks.pure (Vocabulary.knowsAll_append.2 ⟨he, hl⟩) (by omega)

theorem whileWith_takes : Takes v n (whileWith statement p) fun s => v.KnowsAll s.baseTypes := by
  intro o m hm
  refine (condition_walks hv).bind fun e he => ?_
  refine (bodyWith_takes hs (by omega)).bind fun l hl => ?_
  exact Walks.pure (Vocabulary.knowsAll_append.2 ⟨he, hl⟩) (by omega)

theorem doWith_takes : Takes v n (doWith statement p) fun s => v.KnowsAll s.baseTypes := by
  intro o m hm
  refine (bodyWith_takes hs hm).bind fun l hl => ?_
  refine (expect_walks (by decide)).bind fun _ _ => ?_
  refine (condition_walks hv).bind fun e he => ?_
  refine (expect_walks (by decide)).bind fun _ _ => ?_
  exact Walks.pure (Vocabulary.knowsAll_append.2 ⟨hl, he⟩) (by omega)

theorem forWith_takes : Takes v n (forWith statement p) fun s => v.KnowsAll s.baseTypes := by
  intro o m hm
  refine (expect_walks (by decide)).bind fun _ _ => ?_
  refine (hs (by omega)).bind fun s hs' => ?_
  refine (expressionUpTo_walks hv (by decide)).bind fun e he => ?_
  refine (expressionUpTo_walks hv (by decide)).bind fun e' he' => ?_
  refine (bodyWith_takes hs (by omega)).bind fun l hl => Walks.pure ?_ (by omega)
  have htail := Vocabulary.knowsAll_append.2 ⟨he', hl⟩
  exact Vocabulary.knowsAll_append.2 ⟨hs', Vocabulary.knowsAll_append.2 ⟨he, htail⟩⟩

omit p in
/-- An inner statement stands behind the keyword of the outer one. -/
theorem statementStep_takes :
    Takes v (n + 1) (statementStep statement) fun s => v.KnowsAll s.baseTypes := by
  intro o m hm
  refine here_ensures.bind fun p => ?_
  refine (accept_behind (by decide)).cond ?_ ?_
  · refine (expressionUpTo_walks hv (by decide)).bind fun e he => ?_
    exact Walks.pure he (by omega)
  refine (accept_behind (by decide)).cond ?_ ?_
  · exact (ifWith_takes hs hv p (by omega)).mono (fun _ => id) (by omega)
  refine (accept_behind (by decide)).cond ?_ ?_
  · exact (whileWith_takes hs hv p (by omega)).mono (fun _ => id) (by omega)
  refine (accept_behind (by decide)).cond ?_ ?_
  · exact (doWith_takes hs hv p (by omega)).mono (fun _ => id) (by omega)
  refine (accept_behind (by decide)).cond ?_ ?_
  · exact (forWith_takes hs hv p (by omega)).mono (fun _ => id) (by omega)
  refine typeStarts_ensures.fork ?_ ?_
  · refine (declarator_walks hv .named).bind fun x hx => ?_
    refine (initialValue_walks hv).bind fun e he => ?_
    exact Walks.pure (Vocabulary.knowsAll_append.2 ⟨hx.1, he⟩) (by omega)
  · refine (expressionUpTo_walks hv (by decide)).bind fun e he => ?_
    exact Walks.pure he (by omega)

end Statement

theorem statementWithin_takes (hv : v.Proper) : ∀ b : Bytes,
    Takes v b.length (statementWithin b) fun s => v.KnowsAll s.baseTypes
  | [] => by
    intro o m hm s hs
    have hlength := hs.2.length_rest
    rw [List.length_nil] at hm
    omega
  | _ :: b => statementStep_takes (statementWithin_takes hv b) hv

theorem statement_walks (hv : v.Proper) :
    Walks v o m statement (m + 1) fun s => v.KnowsAll s.baseTypes := by
  refine .of_forall_at fun c hc => budget_ensures.bind_of fun b hb => ?_
  exact (statementWithin_takes hv b (by omega)).rebase hc

theorem body_walks (hv : v.Proper) :
    Walks v o m body (m + 1) fun l => v.KnowsAll (Stmt.baseTypesAll l) :=
  bodyWith_takes (n := o.rest.length + 1) (fun _ _ _ => statement_walks hv) (by omega)

/-! ### Definitions -/

/-- The definition is in scope under `v`, and the vocabulary is the one behind it. -/
def Declares (v : Vocabulary) (o : Cursor) (n : Nat) (d : Definition) : Assertion :=
  fun v' c => d.Scoped v ∧ Behind (v.behind d) o n v' c

theorem Declares.mono {d : Definition} {v' : Vocabulary} (h : Declares v o n d v' c)
    (hmn : m ≤ n) : Declares v o m d v' c :=
  ⟨h.1, h.2.mono hmn⟩

theorem declared {d : Definition} (hknown : (v.inside d).KnowsAll d.baseTypes)
    (hnamed : ∀ w, d.declaredType? = some w → w ≠ []) (hmn : m ≤ n) :
    Ensures (Behind (v.behind d) o n) (pure d) (Declares v o m) :=
  .pure fun _ _ hs => ⟨⟨hknown, hnamed⟩, hs.mono hmn⟩

theorem named_of_isWord {w : Bytes} (h : isWord w = true) : ∀ u, some w = some u → u ≠ [] := by
  rintro u ⟨⟩ rfl
  cases h

section Definition
variable (hv : v.Proper) (p : Position)

include hv

theorem structBody_ensures {name : Bytes} (hname : isWord name = true) :
    Ensures (Behind v o m) (structBody name p) (Declares v o (m + 1)) := by
  refine (declareType_ensures name).bind fun _ => ?_
  refine (expect_walks (by decide)).bind fun _ _ => ?_
  refine Walks.bind (n := m + 1)
    (A := fun l => ∀ x ∈ l, (v.addType name).KnowsAll (Member.type x).baseTypes) ?_ fun l hl => ?_
  · refine iterate_walks
      (A := fun l => ∀ x ∈ l, (v.addType name).KnowsAll (Member.type x).baseTypes)
      (fun c l hc hl => ?_) (List.forall_mem_nil _)
    refine typeStarts_ensures.fork ?_ (done (forall_mem_reverse hl))
    refine here_ensures.bind fun q => ?_
    refine (declarator_walks (hv.addType name) .named).bind fun x hx => ?_
    refine (expect_walks (by decide)).bind fun _ _ => ?_
    exact again (List.forall_mem_cons.2 ⟨hx.1, hl⟩) (by omega)
  · refine (expect_walks (by decide)).bind fun _ _ => ?_
    refine (accept_walks (by decide)).bind fun _ _ => ?_
    exact declared (d := .struct name l p) (Vocabulary.knowsAll_flatMap.2 hl)
      (named_of_isWord hname) (by omega)

theorem enumeratorValue_walks :
    Walks v o m enumeratorValue m fun e => v.KnowsAll (Expr.baseTypes? e) := by
  refine (accept_behind (by decide)).cond ?_ ?_
  · refine (requiredExpression_walks hv).bind fun e he => ?_
    exact Walks.pure (a := some e) he (by omega)
  · exact Walks.pure (a := none) Vocabulary.knowsAll_nil (Nat.le_refl _)

theorem enumBody_ensures {name : Bytes} (hname : isWord name = true) :
    Ensures (Behind v o m) (enumBody name p) (Declares v o (m + 1)) := by
  refine (expect_walks (by decide)).bind fun _ _ => ?_
  refine Walks.bind (n := m + 1)
    (A := fun l => ∀ x ∈ l, v.KnowsAll (Expr.baseTypes? (Enumerator.value x))) ?_ fun l hl => ?_
  · refine iterate_walks
      (A := fun l => ∀ x ∈ l, v.KnowsAll (Expr.baseTypes? (Enumerator.value x)))
      (fun c l hc hl => ?_) (List.forall_mem_nil _)
    refine (test_ensures _).fork ?_ (done (forall_mem_reverse hl))
    refine identifier_walks.bind fun member _ => ?_
    refine (enumeratorValue_walks hv).bind fun e he => ?_
    have hcons : ∀ x ∈ Enumerator.mk member e :: l, v.KnowsAll (Expr.baseTypes? x.value) :=
      List.forall_mem_cons.2 ⟨he, hl⟩
    exact (accept_behind (by decide)).cond (again hcons (by omega))
      (done (forall_mem_reverse hcons))
  · refine (expect_walks (by decide)).bind fun _ _ => ?_
    refine (accept_walks (by decide)).bind fun _ _ => ?_
    refine (declareType_ensures name).bind fun _ => ?_
    exact declared (d := .enumeration name l p) (Vocabulary.knowsAll_flatMap.2 hl)
      (named_of_isWord hname) (by omega)

theorem typeDefinition_ensures :
    Ensures (Behind v o m) (typeDefinition p) (Declares v o (m + 1)) := by
  refine (declarator_walks hv .named).bind fun x hx => ?_
  refine (expect_walks (by decide)).bind fun _ _ => ?_
  refine (declareType_ensures x.2).bind fun _ => ?_
  exact declared (d := .typeName x.2 x.1 p) hx.1 (named_of_isWord (hx.2 rfl)) (by omega)

omit p in
theorem parameters_walks :
    Walks v o m parameters m fun l => ∀ x ∈ l, v.KnowsAll (Parameter.type x).baseTypes := by
  refine iterate_walks (A := fun l => ∀ x ∈ l, v.KnowsAll (Parameter.type x).baseTypes)
    (fun c l hc hl => ?_) (List.forall_mem_nil _)
  refine typeStarts_ensures.fork ?_ ?_
  · refine (declarator_walks hv .optional).bind fun x hx => ?_
    have hcons : ∀ y ∈ Parameter.mk x.2 x.1 :: l, v.KnowsAll y.type.baseTypes :=
      List.forall_mem_cons.2 ⟨hx.1, hl⟩
    refine (accept_behind (by decide)).cond (done (forall_mem_reverse hcons)) ?_
    exact (expect_walks (by decide)).bind fun _ _ => again hcons (by omega)
  · exact (expect_walks (by decide)).bind fun _ _ => done (forall_mem_reverse hl)

theorem declaration_ensures :
    Ensures (Behind v o m) (declaration p) (Declares v o (m + 1)) := by
  refine typeStarts_ensures.fork ?_ (unexpected_ensures _)
  refine (declarator_walks hv .named).bind fun x hx => ?_
  refine (accept_behind (by decide)).cond ?_ ?_
  · refine (parameters_walks hv).bind fun l hl => ?_
    have hl := Vocabulary.knowsAll_flatMap.2 hl
    refine (accept_behind (by decide)).cond ?_ ?_
    · exact declared (d := .prototype x.2 x.1 l p) (Vocabulary.knowsAll_append.2 ⟨hx.1, hl⟩)
        (fun w h => by cases h) (by omega)
    · refine (body_walks hv).bind fun b hb => ?_
      have htail := Vocabulary.knowsAll_append.2 ⟨hl, hb⟩
      exact declared (d := .function x.2 x.1 l b p)
        (Vocabulary.knowsAll_append.2 ⟨hx.1, htail⟩) (fun w h => by cases h) (by omega)
  · refine (initialValue_walks hv).bind fun e he => ?_
    exact declared (d := .global x.2 x.1 e p) (Vocabulary.knowsAll_append.2 ⟨hx.1, he⟩)
      (fun w h => by cases h) (by omega)

/-- Without a body, the definition is a declaration from its first byte on. -/
theorem tagged_ensures {bodyOf : Bytes → Position → Parser Definition}
    (h : ∀ name, isWord name = true →
      Ensures (Behind v c 2) (bodyOf name p) (Declares v c 3)) :
    Ensures (Behind v c 1) (tagged c bodyOf p) (Declares v c 1) := by
  refine identifier_walks.bind fun name hname => ?_
  refine (peek_ensures _).fork ?_ ?_
  · exact (h name hname).post fun d v' c' hd => hd.mono (by omega)
  · exact restore_ensures.bind fun _ => (declaration_ensures hv p).at_of_behind

omit p in
/-- **A definition takes a byte at least and is in scope.** -/
theorem definition_ensures : Ensures (At v c) definition (Declares v c 1) := by
  refine here_ensures.bind fun p => ?_
  refine mark_ensures.bind_of fun start hstart => ?_
  subst hstart
  refine (accept_at (by decide)).cond ?_ ?_
  · exact tagged_ensures hv p fun name hname => structBody_ensures hv p hname
  refine (accept_at (by decide)).cond ?_ ?_
  · exact tagged_ensures hv p fun name hname => enumBody_ensures hv p hname
  refine (accept_at (by decide)).cond ?_ (declaration_ensures hv p).at_of_behind
  exact (typeDefinition_ensures hv p).post fun d v' c' hd => hd.mono (by omega)

end Definition

/-! ### Programs -/

/-- **A program is read with each definition in scope of the ones before**, or a mismatch is found;
the vocabulary has grown by the types that were declared. -/
theorem program_ensures (hv : v.Proper) :
    Ensures (At v c) program fun p v' _ =>
      Program.Scoped v p ∧ v' = p.foldl Vocabulary.behind v := by
  refine (iterate_ensures (I := fun (found : Program) v' _ =>
    Program.Scoped v found.reverse ∧ v' = found.reverse.foldl Vocabulary.behind v)
    (fun found c => ?_) []).pre fun v' c' hs => ⟨Program.scoped_nil, hs.1⟩
  refine atEnd_ensures.fork (.pure fun _ _ hs => hs.2) ?_
  -- the vocabulary changes from round to round, but the definitions found fix it within one
  rintro s ⟨rfl, hscoped, hfold⟩
  refine Ensures.bind (definition_ensures (hv.foldl_behind found.reverse))
    (fun d => .pure fun v' c' hd => ⟨hd.2.2, ?_⟩) s ⟨hfold, rfl⟩
  rw [List.reverse_cons, List.foldl_concat]
  exact ⟨hscoped.concat hd.1, hd.2.1⟩

theorem wholeExpression_forms (hv : v.Proper) :
    Walks v o m wholeExpression (m + 1) fun e => e.Formed v := by
  refine (requiredExpression_forms hv).bind fun e he => ?_
  exact atEnd_ensures.fork (Walks.pure he (Nat.le_refl _)) (unexpected_ensures _)

end MiniC.Grammar
