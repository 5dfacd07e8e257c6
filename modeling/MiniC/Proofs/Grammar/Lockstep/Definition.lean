import MiniC.Proofs.Grammar.Lockstep.Expression

/-!
# Statements and definitions in step

Statements and definitions are read in the same way from two texts in front of their seam. A
statement ends in front of it, since the brace that closes its body must follow
(`statement_inside`). A definition may be the last of its text (`definition_finishes`): it ends with
a semicolon or a brace, and where the semicolon behind a body may be missing, the second text has
none either, since a word comes next there, if anything.
-/

namespace MiniC.Scan.Seam

open MiniC.Parser MiniC.Grammar ParserState

variable {M : Placing} {S : Seam M}

theorem declarator_inside (naming : Naming) :
    S.Inside (fun x y => M.Like TypeDesc.relocate x.1 y.1 ∧ x.2 = y.2 ∧
      (naming = .named → isWord x.2 = true)) (declarator naming) (declarator naming) :=
  declaratorWith_inside requiredExpression_inside naming

/-! ### Statements -/

theorem expressionUpTo_inside {word : Bytes} (hw : Plain word) :
    S.Inside (M.LikeOption Expr.relocate) (expressionUpTo word) (expressionUpTo word) :=
  expression_inside.bind fun _ _ he => (expect_inside hw).bind fun _ _ _ => Tracks.pure he

theorem condition_inside : S.Inside (M.Like Expr.relocate) condition condition := by
  refine (expect_inside (by decide)).bind fun _ _ _ => ?_
  refine requiredExpression_inside.bind fun e e' he => ?_
  exact (expect_inside (by decide)).bind fun _ _ _ => Tracks.pure he

theorem initialValue_finishes :
    S.Finishes (M.LikeOption Expr.relocate) initialValue initialValue := by
  refine (accept_inside (by decide)).cond ?_ ?_
  · refine requiredExpression_inside.bind fun e e' he => ?_
    exact (expect_finishes (by decide)).bind fun _ _ _ => Tracks.pure (congrArg some he)
  · exact (expect_finishes (by decide)).bind fun _ _ _ => Tracks.pure rfl

section Statement

variable {statement statement' : Parser Stmt}
  (hs : S.Inside (M.Like Stmt.relocate) statement statement')

include hs

theorem bodyWith_finishes :
    S.Finishes (M.LikeList Stmt.relocate) (bodyWith statement) (bodyWith statement') := by
  refine (expect_inside (by decide)).bind fun _ _ _ => ?_
  refine Tracks.bind (V := M.LikeList Stmt.relocate) (Q := S.Live) ?_ fun found found' hf =>
    (expect_finishes (by decide)).bind fun _ _ _ => Tracks.pure hf
  refine iterate_inside (U := M.LikeList Stmt.relocate) (fun found found' hf => ?_) rfl
  refine atEnd_inside.cond (Tracks.pure (.inr hf.reverse)) ?_
  refine (peek_inside (by decide)).cond (Tracks.pure (.inr hf.reverse)) ?_
  exact hs.bind fun st st' hst => Tracks.pure (.inl (congrArg₂ List.cons hst hf))

theorem ifWith_inside {p p' : Position} (hp : M.left p = M.right p') :
    S.Inside (M.Like Stmt.relocate) (ifWith statement p) (ifWith statement' p') := by
  refine condition_inside.bind fun c c' hc => ?_
  refine (bodyWith_finishes hs).inside.bind fun b b' hb => ?_
  refine (accept_inside (by decide)).cond ?_ (Tracks.pure ?_)
  · refine (bodyWith_finishes hs).inside.bind fun o o' ho => Tracks.pure ?_
    have h := congr (congr (congrArg₂ Stmt.ifElse hc hb.relocateAll) ho.relocateAll) hp
    exact h
  · have h := congr (congrArg₂ Stmt.ifThen hc hb.relocateAll) hp
    exact h

theorem whileWith_inside {p p' : Position} (hp : M.left p = M.right p') :
    S.Inside (M.Like Stmt.relocate) (whileWith statement p) (whileWith statement' p') := by
  refine condition_inside.bind fun c c' hc => ?_
  refine (bodyWith_finishes hs).inside.bind fun b b' hb => Tracks.pure ?_
  have h := congr (congrArg₂ Stmt.whileLoop hc hb.relocateAll) hp
  exact h

theorem doWith_inside {p p' : Position} (hp : M.left p = M.right p') :
    S.Inside (M.Like Stmt.relocate) (doWith statement p) (doWith statement' p') := by
  refine (bodyWith_finishes hs).inside.bind fun b b' hb => ?_
  refine (expect_inside (by decide)).bind fun _ _ _ => ?_
  refine condition_inside.bind fun c c' hc => ?_
  refine (expect_inside (by decide)).bind fun _ _ _ => Tracks.pure ?_
  have h := congr (congrArg₂ Stmt.doWhile hb.relocateAll hc) hp
  exact h

theorem forWith_inside {p p' : Position} (hp : M.left p = M.right p') :
    S.Inside (M.Like Stmt.relocate) (forWith statement p) (forWith statement' p') := by
  refine (expect_inside (by decide)).bind fun _ _ _ => ?_
  refine hs.bind fun st st' hst => ?_
  refine (expressionUpTo_inside (by decide)).bind fun c c' hc => ?_
  refine (expressionUpTo_inside (by decide)).bind fun e e' he => ?_
  refine (bodyWith_finishes hs).inside.bind fun b b' hb => Tracks.pure ?_
  have h := congr (congr (congr (congrArg₂ Stmt.forLoop hst hc) he) hb.relocateAll) hp
  exact h

theorem statementStep_inside :
    S.Inside (M.Like Stmt.relocate) (statementStep statement) (statementStep statement') := by
  refine here_inside.bind fun p p' hp => ?_
  refine (accept_inside (by decide)).cond ?_ ?_
  · refine (expressionUpTo_inside (by decide)).bind fun e e' he => Tracks.pure ?_
    exact congrArg₂ Stmt.ret he hp
  refine (accept_inside (by decide)).cond (ifWith_inside hs hp) ?_
  refine (accept_inside (by decide)).cond (whileWith_inside hs hp) ?_
  refine (accept_inside (by decide)).cond (doWith_inside hs hp) ?_
  refine (accept_inside (by decide)).cond (forWith_inside hs hp) ?_
  refine typeStarts_inside.cond ?_ ?_
  · refine (declarator_inside .named).bind ?_
    rintro ⟨t, name⟩ ⟨t', _⟩ ⟨ht, rfl, -⟩
    refine initialValue_finishes.inside.bind fun v v' hv => Tracks.pure ?_
    have h := congr (congrArg₂ (Stmt.declaration name) ht hv) hp
    exact h
  · refine (expressionUpTo_inside (by decide)).bind fun e e' he => Tracks.pure ?_
    exact congrArg₂ Stmt.expression he hp

end Statement

theorem statementWithin_inside : ∀ m n : Bytes, m.length ≤ n.length →
    S.Inside (M.Like Stmt.relocate) (statementWithin m) (statementWithin n)
  | [], _, _ => throw_tracks _
  | _ :: _, [], h => by simp at h
  | _ :: m, _ :: n, h => statementStep_inside (statementWithin_inside m n (by simpa using h))

theorem statement_inside : S.Inside (M.Like Stmt.relocate) statement statement :=
  budget_inside.bind fun m n hmn => statementWithin_inside m n hmn

theorem body_finishes : S.Finishes (M.LikeList Stmt.relocate) body body :=
  bodyWith_finishes statement_inside

/-! ### Definitions -/

theorem structBody_finishes {name : Bytes} (hn : isWord name = true) {p p' : Position}
    (hp : M.left p = M.right p') :
    S.Finishes (M.Like Definition.relocate) (structBody name p) (structBody name p') := by
  refine (declareType_tracks (P := S.Live) hn fun _ _ h => h).bind fun _ _ _ => ?_
  refine (expect_inside (by decide)).bind fun _ _ _ => ?_
  refine Tracks.bind (V := M.LikeList Member.relocate) (Q := S.Live) ?_ fun ms ms' hms => ?_
  · refine iterate_inside (U := M.LikeList Member.relocate) (fun found found' hf => ?_) rfl
    refine typeStarts_inside.cond ?_ (Tracks.pure (.inr hf.reverse))
    refine here_inside.bind fun q q' hq => ?_
    refine (declarator_inside .named).bind ?_
    rintro ⟨t, member⟩ ⟨t', _⟩ ⟨ht, rfl, -⟩
    refine (expect_inside (by decide)).bind fun _ _ _ => Tracks.pure (.inl ?_)
    exact congrArg₂ List.cons (congrArg₂ (Member.mk member) ht hq) hf
  · refine (expect_finishes (by decide)).bind fun _ _ _ => ?_
    refine (accept_mark (by decide) (by decide)).bind fun _ _ _ => Tracks.pure ?_
    exact congrArg₂ (Definition.struct name) hms hp

theorem enumeratorValue_inside :
    S.Inside (M.LikeOption Expr.relocate) enumeratorValue enumeratorValue := by
  refine (accept_inside (by decide)).cond ?_ (Tracks.pure rfl)
  exact requiredExpression_inside.bind fun e e' he => Tracks.pure (congrArg some he)

theorem enumBody_finishes {name : Bytes} (hn : isWord name = true) {p p' : Position}
    (hp : M.left p = M.right p') :
    S.Finishes (M.Like Definition.relocate) (enumBody name p) (enumBody name p') := by
  refine (expect_inside (by decide)).bind fun _ _ _ => ?_
  refine Tracks.bind (V := M.LikeList Enumerator.relocate) (Q := S.Live) ?_
    fun ms ms' hms => ?_
  · refine iterate_inside (U := M.LikeList Enumerator.relocate) (fun found found' hf => ?_)
      rfl
    refine test_inside.cond ?_ (Tracks.pure (.inr hf.reverse))
    refine identifier_finishes.inside.bind ?_
    rintro member _ ⟨rfl, -⟩
    refine enumeratorValue_inside.bind fun v v' hv => ?_
    have hcons : M.LikeList Enumerator.relocate (⟨member, v⟩ :: found)
        (⟨member, v'⟩ :: found') := congrArg₂ List.cons (congrArg (Enumerator.mk member) hv) hf
    exact (accept_inside (by decide)).cond (Tracks.pure (.inl hcons))
      (Tracks.pure (.inr hcons.reverse))
  · refine (expect_finishes (by decide)).bind fun _ _ _ => ?_
    refine (accept_mark (by decide) (by decide)).bind fun _ _ _ => ?_
    refine (declareType_tracks (P := Clean) hn fun _ _ h => h).bind fun _ _ _ => Tracks.pure ?_
    exact congrArg₂ (Definition.enumeration name) hms hp

theorem typeDefinition_finishes {p p' : Position} (hp : M.left p = M.right p') :
    S.Finishes (M.Like Definition.relocate) (typeDefinition p) (typeDefinition p') := by
  refine (declarator_inside .named).bind ?_
  rintro ⟨t, name⟩ ⟨t', _⟩ ⟨ht, rfl, hn⟩
  refine (expect_finishes (by decide)).bind fun _ _ _ => ?_
  refine (declareType_tracks (P := Clean) (hn rfl) fun _ _ h => h).bind fun _ _ _ =>
    Tracks.pure ?_
  exact congrArg₂ (Definition.typeName name) ht hp

theorem parameters_inside :
    S.Inside (M.LikeList Parameter.relocate) parameters parameters := by
  refine iterate_inside (U := M.LikeList Parameter.relocate) (fun found found' hf => ?_) rfl
  refine typeStarts_inside.cond ?_ ?_
  · refine (declarator_inside .optional).bind ?_
    rintro ⟨t, name⟩ ⟨t', _⟩ ⟨ht, rfl, -⟩
    have hcons : M.LikeList Parameter.relocate (⟨name, t⟩ :: found)
        (⟨name, t'⟩ :: found') := congrArg₂ List.cons (congrArg (Parameter.mk name) ht) hf
    refine (accept_inside (by decide)).cond (Tracks.pure (.inr hcons.reverse)) ?_
    exact (expect_inside (by decide)).bind fun _ _ _ => Tracks.pure (.inl hcons)
  · exact (expect_inside (by decide)).bind fun _ _ _ => Tracks.pure (.inr hf.reverse)

theorem declaration_finishes {p p' : Position} (hp : M.left p = M.right p') :
    S.Finishes (M.Like Definition.relocate) (declaration p) (declaration p') := by
  refine typeStarts_inside.cond ?_ (unexpected_tracks _)
  refine (declarator_inside .named).bind ?_
  rintro ⟨t, name⟩ ⟨t', _⟩ ⟨ht, rfl, -⟩
  refine (accept_inside (by decide)).cond ?_ ?_
  · refine parameters_inside.bind fun ps ps' hps => ?_
    refine accept_cond (by decide) (Tracks.pure ?_) ?_
    · have h := congr (congrArg₂ (Definition.prototype name) ht hps) hp
      exact h
    · refine body_finishes.bind fun b b' hb => Tracks.pure ?_
      have h := congr (congr (congrArg₂ (Definition.function name) ht hps) hb) hp
      exact h
  · refine initialValue_finishes.bind fun v v' hv => Tracks.pure ?_
    have h := congr (congrArg₂ (Definition.global name) ht hv) hp
    exact h

/-- Behind its name a tagged definition has its body. Without a body the parser goes back, even
from the end of the text. -/
theorem tagged_finishes {c d : Cursor} (hcd : S.Matches c d)
    {bodyOf : Bytes → Position → Parser Definition}
    (h : ∀ name, isWord name = true → ∀ {p p' : Position}, M.left p = M.right p' →
      S.Finishes (M.Like Definition.relocate) (bodyOf name p) (bodyOf name p'))
    {p p' : Position} (hp : M.left p = M.right p') :
    S.Finishes (M.Like Definition.relocate) (tagged c bodyOf p) (tagged d bodyOf p') := by
  refine identifier_finishes.bind ?_
  rintro name _ ⟨rfl, hname⟩
  refine (peek_mark (by decide) (by decide)).cond (h name hname hp).weaken ?_
  exact (restore_tracks hcd).bind fun _ _ _ => declaration_finishes hp

/-- **A definition is read in the same way in front of the seam.** -/
theorem definition_finishes :
    S.Finishes (M.Like Definition.relocate) definition definition := by
  refine here_inside.bind fun p p' hp => ?_
  refine mark_bind fun c d hcd => ?_
  refine (accept_inside (by decide)).cond ?_ ?_
  · exact tagged_finishes hcd (fun _ hn => structBody_finishes hn) hp
  refine (accept_inside (by decide)).cond ?_ ?_
  · exact tagged_finishes hcd (fun _ hn => enumBody_finishes hn) hp
  exact (accept_inside (by decide)).cond (typeDefinition_finishes hp) (declaration_finishes hp)

end MiniC.Scan.Seam
