import MiniC.Proofs.Grammar.Lockstep.Rules

/-!
# Expressions in step

Declarators, operands and expressions are read in the same way from two texts in front of their
seam, with the positions in the trees compared as a `Placing` says. There is one rule for each
parser, and its proof follows the definition of the parser.

The rules are for runs that end in front of the seam. Such a run has never been behind it, with one
exception to be excluded: behind `sizeof (` the parser may look for a type and go back. It then
reads an operand from the parenthesis on, so that it is in front of the seam behind the parenthesis,
too (`Reenters`). The main statement is `operand_inside`.
-/

namespace MiniC.Scan.Seam

open MiniC.Parser MiniC.Grammar ParserState

variable {M : Placing} {S : Seam M}

/-! ### Declarators -/

theorem typeStarts_inside : S.Inside (· = ·) typeStarts typeStarts := by
  refine get_tracks.bind fun st st' ⟨hv, hg⟩ => ?_
  rw [hv]
  refine (firstPeeked_inside fun w hw => seamless_of_isWord (hg.identifiers w hw)).bind ?_
  rintro o _ rfl
  exact Tracks.pure rfl

theorem modifierPass_inside : ∀ {l : List Bytes}, (∀ w ∈ l, Seamless w) →
    S.Inside (· = ·) (modifierPass l) (modifierPass l)
  | [], _ => Tracks.pure rfl
  | w :: l, hl => by
    have ih := modifierPass_inside fun u hu => hl u (List.mem_cons_of_mem w hu)
    refine (accept_inside (hl w List.mem_cons_self)).cond (ih.bind ?_) ih
    rintro found _ rfl
    exact Tracks.pure rfl

theorem modifierStep_inside {words found : List Bytes} (hw : ∀ w ∈ words, Seamless w) :
    S.Inside (Sum.LiftRel (· = ·) (· = ·)) (modifierStep words found)
      (modifierStep words found) := by
  refine (modifierPass_inside hw).bind ?_
  rintro more _ rfl
  refine Tracks.pure ?_
  split
  · exact .inr rfl
  · exact .inl rfl

theorem modifiers_inside : S.Inside (· = ·) modifiers modifiers := by
  refine get_tracks.bind fun st st' ⟨hv, hg⟩ => ?_
  rw [hv]
  refine iterate_inside ?_ rfl
  rintro found _ rfl
  exact modifierStep_inside fun w hw =>
    seamless_of_isWord (hg.identifiers w (List.mem_append_left _ hw))

theorem baseType_inside : S.Inside (· = ·) baseType baseType := by
  refine modifiers_inside.bind ?_
  rintro found _ rfl
  refine get_tracks.bind fun st st' ⟨hv, hg⟩ => ?_
  dsimp only
  rw [hv]
  refine (firstAccepted_inside fun w hw =>
    seamless_of_isWord (hg.identifiers w (List.mem_append_right _ hw))).bind ?_
  rintro (_ | name) _ rfl
  · dsimp only
    split
    · exact Tracks.pure rfl
    · exact unexpected_tracks _
  · exact Tracks.pure rfl

theorem pointerStep_inside {t t' : TypeDesc} (h : M.Like TypeDesc.relocate t t') :
    S.Inside (Sum.LiftRel (M.Like TypeDesc.relocate) (M.Like TypeDesc.relocate)) (pointerStep t)
      (pointerStep t') := by
  refine (accept_inside (by decide)).cond ?_ (Tracks.pure (.inr h))
  refine here_inside.bind fun p p' hp => Tracks.pure (.inl ?_)
  exact congrArg₂ TypeDesc.pointer h hp

theorem pointers_inside {t t' : TypeDesc} (h : M.Like TypeDesc.relocate t t') :
    S.Inside (M.Like TypeDesc.relocate) (pointers t) (pointers t') :=
  iterate_inside (fun _ _ => pointerStep_inside) h

theorem arrayStep_inside {length length' : Parser Expr}
    (hl : S.Inside (M.Like Expr.relocate) length length') {t t' : TypeDesc}
    (h : M.Like TypeDesc.relocate t t') :
    S.Inside (Sum.LiftRel (M.Like TypeDesc.relocate) (M.Like TypeDesc.relocate))
      (arrayStep length t) (arrayStep length' t') := by
  refine (accept_inside (by decide)).cond ?_ (Tracks.pure (.inr h))
  refine here_inside.bind fun p p' hp => ?_
  refine (accept_inside (by decide)).cond (Tracks.pure (.inl ?_)) ?_
  · exact congrArg₂ TypeDesc.array h hp
  · refine hl.bind fun n n' hn => ?_
    refine (expect_inside (by decide)).bind fun _ _ _ => Tracks.pure (.inl ?_)
    have h := congr (congrArg₂ TypeDesc.sizedArray h hn) hp
    exact h

theorem declaredName_inside : ∀ naming : Naming,
    S.Inside (fun a b => a = b ∧ (naming = .named → isWord a = true)) (declaredName naming)
      (declaredName naming)
  | .named => identifier_finishes.inside.mono fun _ _ ⟨hab, hw⟩ => ⟨hab, fun _ => hw⟩
  | .nameless => Tracks.pure ⟨rfl, by rintro ⟨⟩⟩
  | .optional => by
    refine test_inside.cond ?_ (Tracks.pure ⟨rfl, by rintro ⟨⟩⟩)
    exact identifier_finishes.inside.mono fun _ _ ⟨hab, hw⟩ => ⟨hab, fun _ => hw⟩

/-- A named declarator names an identifier. -/
theorem declaratorWith_inside {length length' : Parser Expr}
    (hl : S.Inside (M.Like Expr.relocate) length length') (naming : Naming) :
    S.Inside (fun x y => M.Like TypeDesc.relocate x.1 y.1 ∧ x.2 = y.2 ∧
      (naming = .named → isWord x.2 = true))
      (declaratorWith length naming) (declaratorWith length' naming) := by
  refine here_inside.bind fun p p' hp => ?_
  refine baseType_inside.bind ?_
  rintro ⟨found, base⟩ _ rfl
  have hbase : M.Like TypeDesc.relocate (.base found base p) (.base found base p') :=
    congrArg (TypeDesc.base found base) hp
  dsimp only
  refine (pointers_inside hbase).bind fun t t' ht => ?_
  refine (declaredName_inside naming).bind ?_
  rintro name _ ⟨rfl, hname⟩
  refine (iterate_inside (fun _ _ => arrayStep_inside hl) ht).bind fun u u' hu => ?_
  exact Tracks.pure ⟨hu, rfl, hname⟩

/-! ### Expressions -/

section Operand

theorem required_inside {p p' : Parser (Option Expr)}
    (h : S.Inside (M.LikeOption Expr.relocate) p p') :
    S.Inside (M.Like Expr.relocate) (required p) (required p') :=
  h.option (fun _ _ he => Tracks.pure he) (unexpected_tracks _)

theorem binaryOp?_inside : S.Inside (· = ·) binaryOp? binaryOp? :=
  firstPeeked_inside (by decide)

variable {operand operand' : Parser (Option Expr)}
  (ho : S.Inside (M.LikeOption Expr.relocate) operand operand')

include ho

theorem climbWithin_inside :
    ∀ (m n : Bytes) (level : Nat) {left left' : Expr}, m.length ≤ n.length →
      M.Like Expr.relocate left left' →
      S.Inside (M.Like Expr.relocate) (climbWithin operand m level left)
        (climbWithin operand' n level left')
  | [], _, _, _, _, _, _ => throw_tracks _
  | _ :: _, [], _, _, _, hmn, _ => by simp at hmn
  | _ :: m, _ :: n, level, left, left', hmn, hleft => by
    rw [climbWithin, climbWithin]
    have hmn' : m.length ≤ n.length := by simpa using hmn
    refine binaryOp?_inside.bind ?_
    rintro (_ | op) _ rfl
    · exact Tracks.pure hleft
    dsimp only
    split
    · exact Tracks.pure hleft
    refine here_inside.bind fun p p' hp => ?_
    refine (accept_inside (by cases op <;> decide)).bind fun _ _ _ => ?_
    refine (required_inside ho).bind fun first first' hfirst => ?_
    refine (climbWithin_inside m n op.rightLevel hmn' hfirst).bind fun right right' hright => ?_
    refine climbWithin_inside m n level hmn' ?_
    have h := congr (congrArg₂ (Expr.binary op) hleft hright) hp
    exact h

theorem expressionWith_inside :
    S.Inside (M.LikeOption Expr.relocate) (expressionWith operand)
      (expressionWith operand') := by
  refine ho.option (fun left left' hleft => ?_) ?_
  · refine budget_inside.bind fun m n hmn => ?_
    refine (climbWithin_inside ho m n 0 hmn hleft).bind fun e e' he => ?_
    exact Tracks.pure (congrArg some he)
  · refine binaryOp?_inside.bind ?_
    rintro (_ | op) _ rfl
    · exact Tracks.pure rfl
    · exact unexpected_tracks _

theorem requiredWith_inside :
    S.Inside (M.Like Expr.relocate) (requiredWith operand) (requiredWith operand') :=
  required_inside (expressionWith_inside ho)

theorem typeInParens_inside :
    S.Inside (M.Like TypeDesc.relocate) (typeInParens operand) (typeInParens operand') := by
  refine (declaratorWith_inside (requiredWith_inside ho) .nameless).bind ?_
  rintro ⟨t, _⟩ ⟨t', _⟩ ⟨ht, -, -⟩
  exact (expect_inside (by decide)).bind fun _ _ _ => Tracks.pure ht

theorem listItems_inside :
    S.Inside (M.LikeList Expr.relocate) (listItems operand) (listItems operand') := by
  refine iterate_inside (U := M.LikeList Expr.relocate) (fun found found' hf => ?_) rfl
  refine atEnd_inside.cond (Tracks.pure (.inr hf.reverse)) ?_
  refine (expressionWith_inside ho).bind fun item item' hitem => ?_
  have hitems : M.LikeList Expr.relocate (item.toList ++ found) (item'.toList ++ found') := by
    simp only [Placing.Like, List.map_append, ← Option.toList_map] at hf hitem ⊢
    rw [hf, hitem]
  exact (accept_inside (by decide)).cond (Tracks.pure (.inl hitems))
    (Tracks.pure (.inr hitems.reverse))

theorem argumentStep_inside {found found' : List Expr}
    (hf : M.LikeList Expr.relocate found found') :
    S.Inside (Sum.LiftRel (M.LikeList Expr.relocate) (M.LikeList Expr.relocate))
      (argumentStep operand found) (argumentStep operand' found') := by
  refine (requiredWith_inside ho).bind fun e e' he => ?_
  have hcons : M.LikeList Expr.relocate (e :: found) (e' :: found') :=
    congrArg₂ List.cons he hf
  exact (accept_inside (by decide)).cond (Tracks.pure (.inl hcons))
    (Tracks.pure (.inr hcons.reverse))

theorem arguments_inside :
    S.Inside (M.LikeList Expr.relocate) (arguments operand) (arguments operand') := by
  refine (accept_inside (by decide)).cond (Tracks.pure rfl) ?_
  have hnil : M.LikeList Expr.relocate [] [] := rfl
  refine (iterate_inside (fun _ _ => argumentStep_inside ho) hnil).bind fun found found' hf => ?_
  exact (expect_inside (by decide)).bind fun _ _ _ => Tracks.pure hf

theorem parenthesized_inside {p p' : Position} (hp : M.left p = M.right p') :
    S.Inside (M.Like Expr.relocate) (parenthesized operand p) (parenthesized operand' p') := by
  refine typeStarts_inside.cond ?_ ?_
  · refine (typeInParens_inside ho).bind fun t t' ht => ?_
    refine (required_inside ho).bind fun e e' he => Tracks.pure ?_
    have h := congr (congrArg₂ Expr.cast ht he) hp
    exact h
  · refine (requiredWith_inside ho).bind fun e e' he => ?_
    exact (expect_inside (by decide)).bind fun _ _ _ => Tracks.pure he

theorem primary_inside {p p' : Position} (hp : M.left p = M.right p') :
    S.Inside (M.LikeOption Expr.relocate) (primary operand p) (primary operand' p') := by
  refine (accept_inside (by decide)).cond ?_ ?_
  · exact (parenthesized_inside ho hp).bind fun e e' he => Tracks.pure (congrArg some he)
  refine (accept_inside (by decide)).cond ?_ ?_
  · refine (listItems_inside ho).bind fun items items' hitems => ?_
    refine (expect_inside (by decide)).bind fun _ _ _ => Tracks.pure ?_
    simp only [Placing.Like, Option.map_some, Expr.relocate_list] at hitems ⊢
    rw [hitems, hp]
  refine quoted_cond (fun code => Tracks.pure ?_) ?_
  · exact congrArg (fun q => some (Expr.char code q)) hp
  refine test_inside.cond ?_ ?_
  · refine string_finishes.inside.bind ?_
    rintro text _ rfl
    exact Tracks.pure (congrArg (fun q => some (Expr.string text q)) hp)
  refine test_inside.cond ?_ ?_
  · refine number_finishes.inside.bind ?_
    rintro value _ rfl
    exact Tracks.pure (congrArg (fun q => some (Expr.number value q)) hp)
  refine test_inside.cond ?_ (Tracks.pure rfl)
  refine identifier_finishes.inside.bind ?_
  rintro name _ ⟨rfl, -⟩
  exact Tracks.pure (congrArg (fun q => some (Expr.name name q)) hp)

theorem suffixStep_inside {e e' : Expr} (he : M.Like Expr.relocate e e') :
    S.Inside (Sum.LiftRel (M.Like Expr.relocate) (M.Like Expr.relocate)) (suffixStep operand e)
      (suffixStep operand' e') := by
  refine here_inside.bind fun p p' hp => ?_
  refine (accept_inside (by decide)).cond ?_ ?_
  · refine (requiredWith_inside ho).bind fun i i' hi => ?_
    refine (expect_inside (by decide)).bind fun _ _ _ => Tracks.pure (.inl ?_)
    have h := congr (congrArg₂ Expr.index he hi) hp
    exact h
  refine (accept_inside (by decide)).cond ?_ ?_
  · refine (arguments_inside ho).bind fun args args' hargs => Tracks.pure (.inl ?_)
    simp only [Placing.Like, Expr.relocate_call] at he hargs ⊢
    rw [he, hargs, hp]
  refine (accept_inside (by decide)).cond (Tracks.pure (.inl ?_)) ?_
  · exact congrArg₂ (Expr.suffixed .inc) he hp
  refine (accept_inside (by decide)).cond (Tracks.pure (.inl ?_)) (Tracks.pure (.inr he))
  exact congrArg₂ (Expr.suffixed .dec) he hp

theorem suffixes_inside {e e' : Expr} (he : M.Like Expr.relocate e e') :
    S.Inside (M.Like Expr.relocate) (suffixes operand e) (suffixes operand' e') :=
  iterate_inside (fun _ _ => suffixStep_inside ho) he

end Operand

/-! ### Behind `sizeof` -/

theorem firstPeeked_back {γ : Type} {word : γ → Bytes} : ∀ {l : List γ} {s s' : ParserState}
    {o : Option γ}, (firstPeeked word l).run s = .ok o s' →
    s'.vocabulary = s.vocabulary ∧ s'.scanner.cursor = s.scanner.cursor ∧ (s'.Clean → s.Clean)
  | [], s, s', o, h => by
    cases h
    exact ⟨rfl, rfl, id⟩
  | a :: l, s, s', o, h => by
    obtain ⟨b, s₁, hpeek, hrest⟩ := run_bind_ok h
    obtain ⟨hv, hc, hclean⟩ := peek_back hpeek
    cases b with
    | true =>
      rw [if_pos rfl] at hrest
      cases hrest
      exact ⟨hv, hc, hclean⟩
    | false =>
      rw [if_neg (by simp)] at hrest
      obtain ⟨hv', hc', hclean'⟩ := firstPeeked_back hrest
      exact ⟨hv'.trans hv, hc'.trans hc, fun h => hclean (hclean' h)⟩

theorem typeStarts_back {s s' : ParserState} {b : Bool} (h : typeStarts.run s = .ok b s') :
    s'.vocabulary = s.vocabulary ∧ s'.scanner.cursor = s.scanner.cursor ∧
      (s'.Clean → s.Clean) := by
  obtain ⟨st, s₁, hget, h⟩ := run_bind_ok h
  cases hget
  obtain ⟨o, s₂, hpeek, h⟩ := run_bind_ok h
  cases h
  exact firstPeeked_back hpeek

/-- Where a parser starts at an opening parenthesis, it is in front of the seam behind it, too. -/
def Reenters {α : Type} (S : Seam M) (p : Parser α) : Prop :=
  ∀ ⦃s : ParserState⦄ ⦃a : α⦄ ⦃s' s₁ : ParserState⦄, S.Regular s → p.run s = .ok a s' →
    S.Live s' → (accept (ascii "(")).run s = .ok true s₁ → S.Live s₁

section SizeOf

variable {operand operand' : Parser (Option Expr)} {k k' : Option TypeDesc → Parser Expr}

/-- What follows the parenthesis behind `sizeof`, if the way back leads to `start`. -/
def sized (operand : Parser (Option Expr)) (k : Option TypeDesc → Parser Expr) (start : Cursor) :
    Parser Expr := do
  if ← typeStarts then
    let type ← typeInParens operand
    k (some type)
  else
    restore start
    k none

theorem sizedType?_bind (operand : Parser (Option Expr)) (k : Option TypeDesc → Parser Expr) :
    (sizedType? operand >>= k) = (do
      let start ← mark
      if ← accept (ascii "(") then sized operand k start else k none) := by
  rw [sizedType?]
  simp only [bind_assoc]
  refine bind_congr fun start => bind_congr fun b => ?_
  cases b with
  | false => rfl
  | true =>
    simp only [if_true, sized, bind_assoc]
    refine bind_congr fun c => ?_
    cases c with
    | true => simp only [if_true, bind_assoc, pure_bind]
    | false => rfl

variable (hnone : S.Inside (M.Like Expr.relocate) (k none) (k' none))

include hnone

/-- The runs that took the way back stood at the same place before. -/
theorem sized_false {s s₁ s₂ s₃ s' : ParserState} {e : Expr} {u : Unit}
    (hs : S.Regular s) (hacc : (accept (ascii "(")).run s = .ok true s₁)
    (hts : typeStarts.run s₁ = .ok false s₂)
    (hres : (restore s.scanner.cursor).run s₂ = .ok u s₃)
    (hrun : (k none).run s₃ = .ok e s') (hl : S.Live s') : s₃ = s ∧ s₂.Clean := by
  have hv₁ : s₁.vocabulary = s.vocabulary ∧ (s₁.Clean → s.Clean) := by
    rw [accept_run] at hacc
    split_ifs at hacc <;> cases hacc
    exact ⟨rfl, Scanner.fault_of_skip (s := s.scanner.advanceBy _)⟩
  obtain ⟨hv₂, -, hclean₂⟩ := typeStarts_back hts
  cases hres
  have hg : s₂.vocabulary.Grown := by rw [hv₂, hv₁.1]; exact hs.grown
  have hregular : S.Regular ⟨s₂.scanner.restore s.scanner.cursor, s₂.vocabulary⟩ :=
    ⟨hg, hs.allows⟩
  have hs₂ : s₂.Clean := ((hnone.back hregular hrun).2.2 hl).clean
  have hs₀ : s.Clean := hv₁.2 (hclean₂ hs₂)
  refine ⟨?_, hs₂⟩
  obtain ⟨⟨cursor, fault⟩, v⟩ := s
  simp only [Scanner.restore, ParserState.mk.injEq, Scanner.mk.injEq, true_and]
  exact ⟨hs₂.trans hs₀.symm, hv₂.trans hv₁.1⟩

variable (ho : S.Inside (M.LikeOption Expr.relocate) operand operand')
  (hsome : ∀ t t', M.Like TypeDesc.relocate t t' →
    S.Inside (M.Like Expr.relocate) (k (some t)) (k' (some t')))

include ho hsome

theorem sized_back (hr : Reenters S (k none)) {s s₁ s' : ParserState} {e : Expr}
    (hs : S.Regular s) (hacc : (accept (ascii "(")).run s = .ok true s₁)
    (hrun : (sized operand k s.scanner.cursor).run s₁ = .ok e s') :
    S.Regular s' ∧ (∃ e', M.Like Expr.relocate e e') ∧ (S.Live s' → S.Live s₁) := by
  obtain ⟨b, s₂, hts, hrun⟩ := run_bind_ok hrun
  have hg₁ := ((accept_inside (S := S) (by decide)).back hs hacc).1
  obtain ⟨hg₂, -, hlive⟩ := (typeStarts_inside (S := S)).back hg₁ hts
  cases b with
  | true =>
    obtain ⟨hg', he, hlive₂⟩ := ((typeInParens_inside ho).bind hsome).back hg₂ hrun
    exact ⟨hg', he, fun hl => hlive (hlive₂ hl)⟩
  | false =>
    obtain ⟨u, s₃, hres, hk⟩ := run_bind_ok hrun
    have hg₃ : S.Regular s₃ := by
      cases hres
      exact ⟨hg₂.grown, hs.allows⟩
    obtain ⟨hg', he, -⟩ := hnone.back hg₃ hk
    refine ⟨hg', he, fun hl => ?_⟩
    obtain ⟨rfl, -⟩ := sized_false hnone hs hacc hts hres hk hl
    exact hr hs hk hl hacc

theorem sized_step {s s₁ s' t t₁ : ParserState} {e : Expr}
    (hacc : (accept (ascii "(")).run s = .ok true s₁) (hs₁ : S.Live s₁)
    (hrun : (sized operand k s.scanner.cursor).run s₁ = .ok e s') (hl : S.Live s') (hs : S.Live s)
    (ht : S.Aligned s t) (ht₁ : S.Aligned s₁ t₁) :
    ∃ e' t', (sized operand' k' t.scanner.cursor).run t₁ = .ok e' t' ∧
      M.Like Expr.relocate e e' ∧ S.Aligned s' t' := by
  obtain ⟨b, s₂, hts, hrun⟩ := run_bind_ok hrun
  have hg₂ := ((typeStarts_inside (S := S)).back ht₁.regular hts).1
  have hc₂ := (typeStarts_back hts).2.1
  cases b with
  | true =>
    have htype := (typeInParens_inside ho).bind hsome
    have hs₂ := (htype.back hg₂ hrun).2.2 hl
    obtain ⟨_, t₂, hts', rfl, ht₂⟩ := typeStarts_inside.step hts hs₂ ht₁
    obtain ⟨e', t', hrun', he, ht'⟩ := htype.step hrun hl ht₂
    exact ⟨e', t', (run_bind_of_ok hts').trans hrun', he, ht'⟩
  | false =>
    -- both runs go back in front of the parenthesis, where they were in step
    obtain ⟨u, s₃, hres, hk⟩ := run_bind_ok hrun
    obtain ⟨rfl, hclean⟩ := sized_false hnone ht.regular hacc hts hres hk hl
    have hs₂ : S.Live s₂ := ⟨hc₂ ▸ hs₁.1, hclean⟩
    obtain ⟨_, t₂, hts', rfl, ht₂⟩ := typeStarts_inside.step hts hs₂ ht₁
    obtain ⟨u', t₃, hres', -, ht₃⟩ :=
      (restore_tracks ht.matches).step hres hs ht₂
    obtain ⟨e', t', hrun', he, ht'⟩ := hnone.step hk hl ht₃
    exact ⟨e', t', ((run_bind_of_ok hts').trans (run_bind_of_ok hres')).trans hrun', he, ht'⟩

theorem sizedType?_inside (hr : Reenters S (k none)) :
    S.Inside (M.Like Expr.relocate) (sizedType? operand >>= k) (sizedType? operand' >>= k') where
  back := by
    intro s e s' hs hrun
    rw [sizedType?_bind] at hrun
    obtain ⟨start, s₀, hmark, hrun⟩ := run_bind_ok hrun
    cases hmark
    obtain ⟨b, s₁, hacc, hrun⟩ := run_bind_ok hrun
    obtain ⟨hg₁, -, hback⟩ := (accept_inside (S := S) (by decide)).back hs hacc
    cases b with
    | true =>
      obtain ⟨hg', he, hlive⟩ := sized_back hnone ho hsome hr hs hacc hrun
      exact ⟨hg', he, fun hl => hback (hlive hl)⟩
    | false =>
      obtain ⟨hg', he, hlive⟩ := hnone.back hg₁ hrun
      exact ⟨hg', he, fun hl => hback (hlive hl)⟩
  step := by
    intro s e s' hrun hl t ht
    rw [sizedType?_bind] at hrun ⊢
    obtain ⟨start, s₀, hmark, hrun⟩ := run_bind_ok hrun
    cases hmark
    obtain ⟨b, s₁, hacc, hrun⟩ := run_bind_ok hrun
    obtain ⟨hg₁, -, hback⟩ := (accept_inside (S := S) (by decide)).back ht.regular hacc
    have hmark' : mark.run t = .ok t.scanner.cursor t := rfl
    rw [run_bind_of_ok hmark']
    cases b with
    | true =>
      have hs₁ := (sized_back hnone ho hsome hr ht.regular hacc hrun).2.2 hl
      obtain ⟨_, t₁, hacc', rfl, ht₁⟩ := (accept_inside (by decide)).step hacc hs₁ ht
      rw [run_bind_of_ok hacc']
      exact sized_step hnone ho hsome hacc hs₁ hrun hl (hback hs₁) ht ht₁
    | false =>
      have hs₁ := (hnone.back hg₁ hrun).2.2 hl
      obtain ⟨_, t₁, hacc', rfl, ht₁⟩ := (accept_inside (by decide)).step hacc hs₁ ht
      rw [run_bind_of_ok hacc']
      exact hnone.step hrun hl ht₁

end SizeOf

/-! ### Operands -/

theorem Reenters.map {α β : Type} {p : Parser α} (h : Reenters S p) (f : α → β) :
    Reenters S (p >>= fun a => pure (f a)) := by
  intro s b s' s₁ hs hrun hl hacc
  obtain ⟨a, s₂, hp, hpure⟩ := run_bind_ok hrun
  cases hpure
  exact h hs hp hl hacc

theorem reenters_required {operand : Parser (Option Expr)} (h : Reenters S operand) :
    Reenters S (required operand) := by
  intro s e s' s₁ hs hrun hl hacc
  obtain ⟨o, s₂, ho, hrest⟩ := run_bind_ok hrun
  cases o with
  | none => cases hrest
  | some e' =>
    cases hrest
    exact h hs ho hl hacc

theorem firstAccepted_none {γ : Type} {word : γ → Bytes} {s : ParserState} : ∀ {l : List γ},
    (∀ a ∈ l, leads (word a) s.scanner.cursor.rest = false) →
      (firstAccepted word l).run s = .ok none s
  | [], _ => rfl
  | a :: l, h => by
    have hacc := accept_run (word a) s
    rw [if_neg (by simp [h a List.mem_cons_self])] at hacc
    rw [firstAccepted, run_bind_of_ok hacc]
    exact firstAccepted_none fun c hc => h c (List.mem_cons_of_mem a hc)

section Operand

variable {operand operand' : Parser (Option Expr)}
  (ho : S.Inside (M.LikeOption Expr.relocate) operand operand')

include ho

theorem prefixedBy_inside (hr : Reenters S operand) {p p' : Position}
    (hp : M.left p = M.right p') (op : PrefixOp) :
    S.Inside (M.Like Expr.relocate) (prefixedBy operand p op) (prefixedBy operand' p' op) := by
  have hnone : S.Inside (M.Like Expr.relocate)
      (do return .prefixed op (← required operand) p)
      (do return .prefixed op (← required operand') p') :=
    (required_inside ho).bind fun e e' he =>
      Tracks.pure (congrArg₂ (Expr.prefixed op) he hp)
  rw [prefixedBy, prefixedBy]
  by_cases hop : op = .sizeOf
  · rw [if_pos hop, if_pos hop]
    refine sizedType?_inside hnone ho (fun t t' ht => Tracks.pure ?_)
      ((reenters_required hr).map (Expr.prefixed op · p))
    exact congrArg₂ Expr.sizeOfType ht hp
  · rw [if_neg hop, if_neg hop, pure_bind, pure_bind]
    exact hnone

/-- An operand that starts with a parenthesis has text behind it. -/
theorem reenters_operandStep : Reenters S (operandStep operand) := by
  intro s o s' s₁ hs hrun hl hacc
  have hlead := accept_true hacc
  have hmiss : ∀ op ∈ PrefixOp.all, leads op.spelling s.scanner.cursor.rest = false := by
    intro op _
    rw [leads, Bool.and_eq_true] at hlead
    obtain ⟨r, hr⟩ := List.isPrefixOf_iff_prefix.mp hlead.1
    rw [← hr]
    cases op <;> rfl
  obtain ⟨p, s₀, hhere, hrun⟩ := run_bind_ok hrun
  cases hhere
  rw [run_bind_of_ok (firstAccepted_none hmiss)] at hrun
  obtain ⟨o', s₂, hprimary, hrun⟩ := run_bind_ok hrun
  rw [primary, run_bind_of_ok hacc, if_pos rfl] at hprimary
  obtain ⟨e, s₃, hparen, hpure⟩ := run_bind_ok hprimary
  cases hpure
  obtain ⟨u, s₄, hsuffixes, hpure⟩ := run_bind_ok hrun
  cases hpure
  have hg₁ := ((accept_inside (S := S) (by decide)).back hs hacc).1
  obtain ⟨q, hq⟩ := M.exists_right s.scanner.cursor.position
  obtain ⟨hg₂, ⟨e', he⟩, hlive⟩ := (parenthesized_inside ho hq).back hg₁ hparen
  exact hlive (((suffixes_inside ho he).back hg₂ hsuffixes).2.2 hl)

theorem operandStep_inside (hr : Reenters S operand) :
    S.Inside (M.LikeOption Expr.relocate) (operandStep operand) (operandStep operand') := by
  refine here_inside.bind fun p p' hp => ?_
  refine (firstAccepted_inside (by decide)).bind ?_
  rintro (_ | op) _ rfl
  · refine (primary_inside ho hp).option (fun e e' he => ?_) (Tracks.pure rfl)
    exact (suffixes_inside ho he).bind fun u u' hu => Tracks.pure (congrArg some hu)
  · exact (prefixedBy_inside ho hr hp op).bind fun e e' he => Tracks.pure (congrArg some he)

end Operand

theorem operandWithin_inside : ∀ m n : Bytes, m.length ≤ n.length →
    S.Inside (M.LikeOption Expr.relocate) (operandWithin m) (operandWithin n) ∧
      Reenters S (operandWithin m)
  | [], _, _ => ⟨throw_tracks _, fun _ _ _ _ _ h => by cases h⟩
  | _ :: _, [], h => by simp at h
  | _ :: m, _ :: n, h => by
    obtain ⟨ho, hr⟩ := operandWithin_inside m n (by simpa using h)
    exact ⟨operandStep_inside ho hr, reenters_operandStep ho⟩

theorem operand_inside : S.Inside (M.LikeOption Expr.relocate) operand operand :=
  budget_inside.bind fun m n hmn => (operandWithin_inside m n hmn).1

theorem expression_inside : S.Inside (M.LikeOption Expr.relocate) expression expression :=
  expressionWith_inside operand_inside

theorem requiredExpression_inside :
    S.Inside (M.Like Expr.relocate) requiredExpression requiredExpression :=
  requiredWith_inside operand_inside

end MiniC.Scan.Seam
