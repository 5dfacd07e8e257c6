import Mathlib.Data.List.TakeDrop
import MiniC.Proofs.Grammar.Run
import MiniC.Proofs.Scan.Placing
import MiniC.Proofs.Syntax.Vocabulary

/-!
# Names of types that do not occur

Two runs on one text are compared whose vocabularies differ at most in the name `n`, where `n` does
not occur in the text (`ParserState.Alike`). `Agrees n V p q` says that from such states `p` and `q`
either succeed with values related by `V`, or both fail at the same place where the same was found;
the states are such states again. What was expected may differ: a missing type is reported with the
list of all types.

The vocabulary is read in two places only, `typeStarts` and `baseType`. There `n` is looked for and
never found (`search_filter`), and it is no modifier that was found either (`modifiers_agrees`). All
other parsers are put together with `Steady.bind`, up to `program` (`program_steady`), so that the
whole outcome is the same (`parseProgram_unused_type`).
-/

namespace MiniC

open Scan

/-! ### Vocabularies that differ in one name -/

namespace Vocabulary

variable {n x : Bytes} {v w : Vocabulary}

/-- The vocabularies differ at most in whether `n` is the name of a type. -/
structure Beside (n : Bytes) (v w : Vocabulary) : Prop where
  modifiers : w.modifiers = v.modifiers
  left : WordSet.Ordered WordSet.longestFirst v.types
  right : WordSet.Ordered WordSet.longestFirst w.types
  types : ∀ x, x ≠ n → (x ∈ w.types ↔ x ∈ v.types)

theorem Beside.addType (h : Beside n v w) (name : Bytes) :
    Beside n (v.addType name) (w.addType name) where
  modifiers := h.modifiers
  left := ordered_addType h.left name
  right := ordered_addType h.right name
  types := by
    intro x hx
    rw [mem_types_addType, mem_types_addType, h.types x hx]

theorem Beside.isType (h : Beside n v w) (hx : x ≠ n) : w.isType x = v.isType x := by
  rw [Bool.eq_iff_iff, Vocabulary.isType, Vocabulary.isType, List.contains_iff_mem,
    List.contains_iff_mem, h.types x hx]

/-- Without `n`, the types are the same and in the same order. -/
theorem Beside.filter_types (h : Beside n v w) :
    v.types.filter (· != n) = w.types.filter (· != n) := by
  refine WordSet.Ordered.eq_of_mem_iff WordSet.linear_longestFirst (h.left.filter _)
    (h.right.filter _) fun x => ?_
  rw [List.mem_filter, List.mem_filter, bne_iff_ne]
  exact and_congr_left fun hx => (h.types x hx).symm

theorem types_foldl_addModifier (words : List Bytes) :
    (words.foldl addModifier v).types = v.types := by rw [foldl_addModifier]

/-- Modifiers are added the same way whatever the types are. -/
theorem modifiers_foldl_addModifier (h : w.modifiers = v.modifiers) (words : List Bytes) :
    (words.foldl addModifier w).modifiers = (words.foldl addModifier v).modifiers := by
  rw [foldl_addModifier, foldl_addModifier, h]

/-- One more name among those that a vocabulary is extended with. -/
theorem beside_extend (hv : WordSet.Ordered WordSet.longestFirst v.types)
    (before after words : List Bytes) :
    Beside n (v.extend (before ++ after) words) (v.extend (before ++ n :: after) words) where
  modifiers := by
    refine modifiers_foldl_addModifier ?_ words
    rw [modifiers_foldl_addType, modifiers_foldl_addType]
  left := by
    rw [extend, types_foldl_addModifier]
    exact ordered_foldl_addType hv _
  right := by
    rw [extend, types_foldl_addModifier]
    exact ordered_foldl_addType hv _
  types := by
    intro x hx
    rw [extend, extend, types_foldl_addModifier, types_foldl_addModifier, mem_types_foldl_addType,
      mem_types_foldl_addType, List.mem_append, List.mem_append, List.mem_cons, or_iff_right hx]

end Vocabulary

/-! ### The judgement -/

/-- Where a failure is and what was found there, whatever was expected. -/
def Failure.site : Failure → Option (Position × Bytes)
  | .mismatch e => some (e.position, e.found)
  | .exhausted => none

/-- The states are the same but for the name `n`, which does not occur in the text. -/
structure ParserState.Alike (n : Bytes) (s t : ParserState) : Prop where
  scanner : t.scanner = s.scanner
  absent : ¬ n <:+: s.scanner.cursor.text
  beside : s.vocabulary.Beside n t.vocabulary

/-- A name that does not occur in the text is not found at the cursor. -/
theorem leads_of_absent {n : Bytes} {c : Cursor} (h : ¬ n <:+: c.text) :
    leads n c.rest = false := by
  by_contra hlead
  rw [Bool.not_eq_false, leads, Bool.and_eq_true] at hlead
  have hstarts : n <+: c.rest := List.isPrefixOf_iff_prefix.1 hlead.1
  exact h (hstarts.isInfix.trans (List.suffix_append _ _).isInfix)

namespace Parser

open ParserState

variable {α β γ δ : Type} {n : Bytes}

/-- Both runs succeed with values in `V`, or they fail at the same site. -/
inductive EndAlike (n : Bytes) (V : α → β → Prop) :
    EStateM.Result Failure ParserState α → EStateM.Result Failure ParserState β → Prop
  | ok {a : α} {b : β} {s t : ParserState} (value : V a b) (states : s.Alike n t) :
    EndAlike n V (.ok a s) (.ok b t)
  | error {e f : Failure} {s t : ParserState} (site : f.site = e.site) (states : s.Alike n t) :
    EndAlike n V (.error e s) (.error f t)

/-- From states that differ in `n` at most, the runs of `p` and `q` end alike. -/
def Agrees (n : Bytes) (V : α → β → Prop) (p : Parser α) (q : Parser β) : Prop :=
  ∀ ⦃s t : ParserState⦄, s.Alike n t → EndAlike n V (p.run s) (q.run t)

/-- The name `n` makes no difference to the parser. -/
abbrev Steady (n : Bytes) (p : Parser α) : Prop := Agrees n (· = ·) p p

variable {V V' : α → β → Prop} {W : γ → δ → Prop} {p : Parser α} {q : Parser β}

/-! ### Putting parsers together -/

theorem Agrees.pure {a : α} {b : β} (h : V a b) : Agrees n V (pure a) (pure b) :=
  fun _ _ hst => .ok h hst

theorem Agrees.bind {f : α → Parser γ} {g : β → Parser δ} (h : Agrees n V p q)
    (hfg : ∀ a b, V a b → Agrees n W (f a) (g b)) : Agrees n W (p >>= f) (q >>= g) := by
  intro s t hst
  have hpq := h hst
  rw [EStateM.run_bind, EStateM.run_bind]
  generalize p.run s = r at hpq ⊢
  generalize q.run t = r' at hpq ⊢
  cases hpq with
  | ok value states => exact hfg _ _ value states
  | error site states => exact .error site states

theorem EndAlike.mono {r : EStateM.Result Failure ParserState α}
    {r' : EStateM.Result Failure ParserState β} (h : EndAlike n V r r')
    (hV : ∀ a b, V a b → V' a b) : EndAlike n V' r r' := by
  cases h with
  | ok value states => exact .ok (hV _ _ value) states
  | error site states => exact .error site states

theorem Agrees.mono (h : Agrees n V p q) (hV : ∀ a b, V a b → V' a b) : Agrees n V' p q :=
  fun _ _ hst => (h hst).mono hV

theorem unexpected_agrees (what what' : Bytes) :
    Agrees n V (unexpected what) (unexpected what') := by
  intro s t hst
  refine .error ?_ hst
  rw [hst.scanner]
  rfl

namespace Steady

variable {p p' : Parser α} {f : α → Parser β}

theorem pure (a : α) : Steady n (pure a) := Agrees.pure rfl

theorem bind (h : Steady n p) (hf : ∀ a, Steady n (f a)) : Steady n (p >>= f) := by
  refine Agrees.bind h fun a b hab => ?_
  subst hab
  exact hf a

/-- A test and its two branches. -/
theorem cond {c : Parser Bool} (hc : Steady n c) (h : Steady n p) (h' : Steady n p') :
    Steady n (c >>= fun b => if b then p else p') := by
  refine hc.bind fun b => ?_
  cases b with
  | true => exact h
  | false => exact h'

/-- A value that may be missing, and what is done in either case. -/
theorem option {o : Parser (Option α)} {k : Option α → Parser β} (h : Steady n o)
    (hsome : ∀ a, Steady n (k (some a))) (hnone : Steady n (k none)) : Steady n (o >>= k) := by
  refine h.bind fun r => ?_
  cases r with
  | some a => exact hsome a
  | none => exact hnone

end Steady

/-! ### Operations on the scanner -/

/-- A parser that only looks at the scanner. -/
theorem look_steady {F : Scanner → α} (hp : ∀ s : ParserState, p.run s = .ok (F s.scanner) s) :
    Steady n p := by
  intro s t hst
  rw [hp, hp, hst.scanner]
  exact .ok rfl hst

/-- A parser that looks for a word and moves if it is there. -/
theorem steady_of_leads {p : Parser Bool} {w : Bytes} {G : Scanner → Scanner}
    (hp : ∀ s : ParserState, p.run s = if leads w s.scanner.cursor.rest then
      .ok true { s with scanner := G s.scanner } else .ok false s)
    (htext : ∀ s, (G s).cursor.text = s.cursor.text) : Steady n p := by
  intro s t hst
  rw [hp, hp, hst.scanner]
  split_ifs
  · refine .ok rfl ⟨rfl, ?_, hst.beside⟩
    rw [htext]
    exact hst.absent
  · exact .ok rfl hst

theorem here_steady : Steady n here := look_steady (F := fun s => s.cursor.position) fun _ => rfl

theorem atEnd_steady : Steady n atEnd := look_steady (F := fun s => s.cursor.atEnd) fun _ => rfl

theorem test_steady (f : Scanner → Bool) : Steady n (test f) := look_steady (F := f) fun _ => rfl

theorem budget_steady : Steady n budget :=
  look_steady (F := fun s => 0 :: s.cursor.rest) fun _ => rfl

theorem text_advanceBy_skip (k : Nat) (keep : Bool) (s : Scanner) :
    ((s.advanceBy k).skip keep).cursor.text = s.cursor.text := by
  rw [Cursor.text_skip, Scanner.advanceBy, Cursor.text_advanceBy]

theorem acceptKeeping_steady (keep : Bool) (w : Bytes) : Steady n (acceptKeeping keep w) :=
  steady_of_leads (acceptKeeping_run keep w) (text_advanceBy_skip w.length keep)

theorem accept_steady (w : Bytes) : Steady n (accept w) := acceptKeeping_steady false w

/-- A word that is moved past is not `n`. -/
theorem accept_agrees (w : Bytes) :
    Agrees n (fun b b' => b = b' ∧ (b = true → w ≠ n)) (accept w) (accept w) := by
  intro s t hst
  have hends := accept_steady w hst
  generalize hr : (accept w).run s = r at hends ⊢
  generalize (accept w).run t = r' at hends ⊢
  cases hends with
  | error site states => exact .error site states
  | ok value states =>
    refine .ok ⟨value, ?_⟩ states
    rintro rfl rfl
    have hlead := accept_true hr
    rw [leads_of_absent hst.absent] at hlead
    cases hlead

theorem peek_steady (w : Bytes) : Steady n (peek w) :=
  steady_of_leads (G := fun s => ((s.advanceBy w.length).skip true).restore s.cursor)
    (peek_run w) fun _ => rfl

theorem scan_steady {f : Scanner → Except SyntaxError α × Scanner}
    (htext : ∀ s, (f s).2.cursor.text = s.cursor.text) : Steady n (scan f) := by
  intro s t hst
  have hstates : ParserState.Alike n { s with scanner := (f s.scanner).2 }
      { t with scanner := (f s.scanner).2 } := by
    refine ⟨rfl, ?_, hst.beside⟩
    rw [htext]
    exact hst.absent
  simp only [EStateM.run, scan, hst.scanner]
  cases hf : f s.scanner with
  | mk r c =>
    rw [hf] at hstates
    cases r with
    | ok a => exact .ok rfl hstates
    | error e => exact .error rfl hstates

theorem expect_steady (w : Bytes) : Steady n (expect w) := by
  refine scan_steady fun s => ?_
  rw [Scanner.consume_eq]
  split_ifs
  · exact text_advanceBy_skip _ false s
  · rfl

theorem read_steady {reader : Bytes → Reading α} {after : Scanner → Scanner}
    (htext : ∀ s, (after s).cursor.text = s.cursor.text) :
    Steady n (scan (Scanner.read reader after)) := by
  refine scan_steady fun s => ?_
  have hmoved : (s.advanceBy (reader s.cursor.rest).length).cursor.text = s.cursor.text :=
    Cursor.text_advanceBy _ _
  rw [Scanner.read]
  split
  · rw [htext]
    exact hmoved
  · exact hmoved
  · exact hmoved

theorem identifier_steady : Steady n identifier := read_steady (Cursor.text_skip false)

theorem firstPeeked_steady (word : α → Bytes) : ∀ l : List α, Steady n (firstPeeked word l)
  | [] => .pure none
  | a :: l => (peek_steady (word a)).cond (.pure (some a)) (firstPeeked_steady word l)

theorem firstAccepted_steady (word : α → Bytes) : ∀ l : List α, Steady n (firstAccepted word l)
  | [] => .pure none
  | a :: l => (accept_steady (word a)).cond (.pure (some a)) (firstAccepted_steady word l)

/-! ### Going back -/

/-- A place to come back to lies in the same text. -/
theorem mark_agrees : Agrees n (fun c d => c = d ∧ ¬ n <:+: c.text) mark mark := by
  intro s t hst
  exact .ok ⟨congrArg Scanner.cursor hst.scanner.symm, hst.absent⟩ hst

theorem restore_steady {c : Cursor} (hc : ¬ n <:+: c.text) : Steady n (restore c) := by
  intro s t hst
  refine .ok rfl ⟨?_, hc, hst.beside⟩
  dsimp only
  rw [hst.scanner]

/-! ### Loops -/

theorem throw_steady (e : Failure) : Steady n (throw e : Parser α) := fun _ _ hst => .error rfl hst

section Loop
variable {V : α → α → Prop} {W : β → β → Prop} {step step' : α → Parser (α ⊕ β)}

theorem iterateWithin_agrees
    (h : ∀ a a', V a a' → Agrees n (Sum.LiftRel V W) (step a) (step' a')) :
    ∀ (budget : Bytes) {a a' : α}, V a a' →
      Agrees n W (iterateWithin step budget a) (iterateWithin step' budget a')
  | [], _, _, _ => fun _ _ hst => .error rfl hst
  | _ :: budget, a, a', ha => by
    rw [iterateWithin_cons, iterateWithin_cons]
    refine (h a a' ha).bind fun r r' hr => ?_
    cases hr with
    | inl hnext => exact iterateWithin_agrees h budget hnext
    | inr hlast => exact .pure hlast

/-- What relates the values at the start of each round, and those at the end of the last. -/
theorem iterate_agrees (h : ∀ a a', V a a' → Agrees n (Sum.LiftRel V W) (step a) (step' a'))
    {a a' : α} (ha : V a a') : Agrees n W (iterate step a) (iterate step' a') := by
  refine Agrees.bind budget_steady fun b b' hb => ?_
  subst hb
  exact iterateWithin_agrees h b ha

theorem iterate_steady (h : ∀ a, Steady n (step a)) (a : α) : Steady n (iterate step a) := by
  refine iterate_agrees (V := (· = ·)) (fun a a' ha => ?_) rfl
  subst ha
  refine (h a).mono fun r r' hr => ?_
  subst hr
  cases r with
  | inl a => exact .inl rfl
  | inr b => exact .inr rfl

end Loop

/-! ### The vocabulary -/

theorem get_agrees :
    Agrees n (fun s t : ParserState => s.vocabulary.Beside n t.vocabulary) get get :=
  fun _ _ hst => .ok hst.beside hst

section Search
variable {look : Bytes → Parser Bool} {search : List Bytes → Parser (Option Bytes)}
  {moved : Bytes → ParserState → ParserState}
  (hlook : ∀ (w : Bytes) (s : ParserState), (look w).run s =
    if leads w s.scanner.cursor.rest then .ok true (moved w s) else .ok false s)
  (hsearch : ∀ (w : Bytes) (l : List Bytes),
    search (w :: l) = look w >>= fun b => if b then pure (some w) else search l)

include hlook hsearch

/-- A search for the first of some words passes over one that is not at the cursor. -/
theorem search_filter {s : ParserState} (h : leads n s.scanner.cursor.rest = false)
    (l : List Bytes) : (search (l.filter (· != n))).run s = (search l).run s := by
  induction l with
  | nil => rfl
  | cons w l ih =>
    by_cases hw : w = n
    · subst hw
      have hmiss : (look w).run s = .ok false s := by rw [hlook, h]; rfl
      rw [List.filter_cons_of_neg (by simp), ih, hsearch, run_bind_of_ok hmiss]
      rfl
    · rw [List.filter_cons_of_pos (by simpa using hw), hsearch, hsearch, EStateM.run_bind,
        EStateM.run_bind, hlook]
      split_ifs
      · rfl
      · exact ih

/-- Searches through words that are the same without `n`. -/
theorem search_agrees (hsteady : ∀ l, Steady n (search l)) {l l' : List Bytes}
    (h : l.filter (· != n) = l'.filter (· != n)) :
    Agrees n (· = ·) (search l) (search l') := by
  intro s t hst
  have hs : leads n s.scanner.cursor.rest = false := leads_of_absent hst.absent
  have ht : leads n t.scanner.cursor.rest = false := by rw [hst.scanner]; exact hs
  rw [← search_filter hlook hsearch hs, ← search_filter hlook hsearch ht, h]
  exact hsteady _ hst

end Search

theorem firstPeeked_agrees {l l' : List Bytes} (h : l.filter (· != n) = l'.filter (· != n)) :
    Agrees n (· = ·) (firstPeeked id l) (firstPeeked id l') :=
  search_agrees peek_run (fun _ _ => rfl) (firstPeeked_steady id) h

theorem firstAccepted_agrees {l l' : List Bytes} (h : l.filter (· != n) = l'.filter (· != n)) :
    Agrees n (· = ·) (firstAccepted id l) (firstAccepted id l') :=
  search_agrees accept_run (fun _ _ => rfl) (firstAccepted_steady id) h

end Parser

/-! ### Declarators -/

namespace Grammar

open MiniC.Parser

variable {n : Bytes}

theorem declareType_steady (name : Bytes) : Steady n (declareType name) :=
  fun _ _ hst => .ok rfl ⟨hst.scanner, hst.absent, hst.beside.addType name⟩

theorem typeStarts_steady : Steady n typeStarts := by
  refine get_agrees.bind fun s t hst => ?_
  refine (firstPeeked_agrees ?_).bind fun r r' hr => .pure (congrArg Option.isSome hr)
  rw [List.filter_append, List.filter_append, hst.modifiers, hst.filter_types]

theorem modifierPass_agrees : ∀ words : List Bytes,
    Agrees n (fun l l' => l = l' ∧ n ∉ l) (modifierPass words) (modifierPass words)
  | [] => .pure ⟨rfl, List.not_mem_nil⟩
  | w :: words => by
    refine (accept_agrees w).bind fun b b' hb => ?_
    obtain ⟨rfl, hw⟩ := hb
    cases b with
    | true =>
      refine (modifierPass_agrees words).bind fun l l' hl => .pure ⟨congrArg (w :: ·) hl.1, ?_⟩
      exact List.not_mem_cons_of_ne_of_not_mem (hw rfl).symm hl.2
    | false => exact modifierPass_agrees words

theorem modifiers_agrees : Agrees n (fun l l' => l = l' ∧ n ∉ l) modifiers modifiers := by
  refine get_agrees.bind fun s t hst => ?_
  dsimp only
  rw [hst.modifiers]
  refine iterate_agrees (V := fun l l' => l = l' ∧ n ∉ l) (fun found found' hfound => ?_)
    ⟨rfl, List.not_mem_nil⟩
  obtain ⟨rfl, hfound⟩ := hfound
  refine (modifierPass_agrees _).bind fun more more' hmore => .pure ?_
  obtain ⟨rfl, hmore⟩ := hmore
  split_ifs
  · exact .inr ⟨rfl, hfound⟩
  · exact .inl ⟨rfl, List.not_mem_append hfound hmore⟩

theorem withoutLast?_congr {α : Type} {f g : α → Bool} {l : List α} (h : ∀ a ∈ l, f a = g a) :
    withoutLast? f l = withoutLast? g l := by
  have hspan : ∀ l : List α, (∀ a ∈ l, f a = g a) →
      l.span (fun a => !f a) = l.span (fun a => !g a) := by
    intro l hl
    rw [List.span_eq_takeWhile_dropWhile, List.span_eq_takeWhile_dropWhile]
    induction l with
    | nil => rfl
    | cons a l ih =>
      obtain ⟨ha, hrest⟩ := List.forall_mem_cons.1 hl
      have hih := Prod.mk.inj (ih hrest)
      rw [List.takeWhile_cons, List.takeWhile_cons, List.dropWhile_cons, List.dropWhile_cons, ha,
        hih.1, hih.2]
  rw [withoutLast?, withoutLast?, hspan _ fun a ha => h a (List.mem_reverse.1 ha)]

/-- The modifiers found imply the same base type, since `n` is none of them. -/
theorem impliedBase?_eq {v w : Vocabulary} (h : v.Beside n w) {found : List Bytes}
    (hfound : n ∉ found) : impliedBase? w found = impliedBase? v found := by
  have hlast : withoutLast? w.isType found = withoutLast? v.isType found :=
    withoutLast?_congr fun x hx => h.isType fun hn => hfound (hn ▸ hx)
  rw [impliedBase?, impliedBase?, hlast]

theorem baseType_steady : Steady n baseType := by
  refine modifiers_agrees.bind fun found found' hfound => ?_
  obtain ⟨rfl, hfound⟩ := hfound
  refine get_agrees.bind fun s t hst => ?_
  refine (firstAccepted_agrees hst.filter_types).bind fun r r' hr => ?_
  subst hr
  cases r with
  | some name => exact .pure rfl
  | none =>
    dsimp only
    rw [impliedBase?_eq hst hfound]
    cases impliedBase? s.vocabulary found with
    | some base => exact .pure rfl
    | none =>
      -- the one place where the runs differ: each reports the types that it knows
      exact unexpected_agrees _ _

theorem pointers_steady (t : TypeDesc) : Steady n (pointers t) :=
  iterate_steady (fun _ => (accept_steady _).cond (here_steady.bind fun _ => .pure _) (.pure _)) t

theorem arrays_steady {length : Parser Expr} (hl : Steady n length) (t : TypeDesc) :
    Steady n (arrays length t) := by
  refine iterate_steady (fun t => (accept_steady _).cond ?_ (.pure _)) t
  refine here_steady.bind fun p => (accept_steady _).cond (.pure _) ?_
  exact hl.bind fun e => (expect_steady _).bind fun _ => .pure _

theorem declaredName_steady : ∀ naming : Naming, Steady n (declaredName naming)
  | .named => identifier_steady
  | .nameless => .pure []
  | .optional => (test_steady _).cond identifier_steady (.pure [])

theorem declaratorWith_steady {length : Parser Expr} (hl : Steady n length) (naming : Naming) :
    Steady n (declaratorWith length naming) := by
  refine here_steady.bind fun p => baseType_steady.bind fun b => ?_
  refine (pointers_steady _).bind fun t => (declaredName_steady naming).bind fun name => ?_
  exact (arrays_steady hl t).bind fun u => .pure _

/-! ### Expressions -/

theorem required_steady {o : Parser (Option Expr)} (h : Steady n o) : Steady n (required o) :=
  h.option .pure (unexpected_agrees _ _)

theorem binaryOp?_steady : Steady n binaryOp? := firstPeeked_steady _ _

section Operand
variable {operand : Parser (Option Expr)} (ho : Steady n operand)

include ho

theorem climbWithin_steady : ∀ (b : Bytes) (level : Nat) (left : Expr),
    Steady n (climbWithin operand b level left)
  | [], _, _ => throw_steady _
  | _ :: b, level, left => by
    rw [climbWithin]
    refine binaryOp?_steady.option (fun op => ?_) (.pure left)
    dsimp only
    split_ifs
    · exact .pure left
    refine here_steady.bind fun p => (accept_steady _).bind fun _ => ?_
    refine (required_steady ho).bind fun first => ?_
    refine (climbWithin_steady b op.rightLevel first).bind fun right => ?_
    exact climbWithin_steady b level (.binary op left right p)

theorem expressionWith_steady : Steady n (expressionWith operand) := by
  refine ho.option (fun left => ?_) ?_
  · refine budget_steady.bind fun b => ?_
    exact (climbWithin_steady ho b 0 left).bind fun e => .pure _
  · exact binaryOp?_steady.option (fun _ => unexpected_agrees _ _) (.pure none)

theorem requiredWith_steady : Steady n (requiredWith operand) :=
  required_steady (expressionWith_steady ho)

theorem typeInParens_steady : Steady n (typeInParens operand) :=
  (declaratorWith_steady (requiredWith_steady ho) .nameless).bind fun _ =>
    (expect_steady _).bind fun _ => .pure _

theorem listItems_steady : Steady n (listItems operand) := by
  refine iterate_steady (fun found => atEnd_steady.cond (.pure _) ?_) []
  exact (expressionWith_steady ho).bind fun item =>
    (accept_steady _).cond (.pure _) (.pure _)

theorem arguments_steady : Steady n (arguments operand) := by
  refine (accept_steady _).cond (.pure []) ?_
  refine Steady.bind (iterate_steady (fun found => ?_) []) fun l =>
    (expect_steady _).bind fun _ => .pure l
  exact (requiredWith_steady ho).bind fun e => (accept_steady _).cond (.pure _) (.pure _)

theorem parenthesized_steady (p : Position) : Steady n (parenthesized operand p) := by
  refine typeStarts_steady.cond ?_ ?_
  · exact (typeInParens_steady ho).bind fun t => (required_steady ho).bind fun e => .pure _
  · exact (requiredWith_steady ho).bind fun e => (expect_steady _).bind fun _ => .pure e

theorem primary_steady (p : Position) : Steady n (primary operand p) := by
  refine (accept_steady _).cond ((parenthesized_steady ho p).bind fun e => .pure _) ?_
  refine (accept_steady _).cond ?_ ?_
  · exact (listItems_steady ho).bind fun items => (expect_steady _).bind fun _ => .pure _
  refine (acceptKeeping_steady true _).cond ?_ ?_
  · exact Steady.bind (read_steady fun _ => rfl) fun code =>
      (expect_steady _).bind fun _ => .pure _
  refine (test_steady _).cond ?_ ?_
  · exact Steady.bind (read_steady (Cursor.text_skip false)) fun text => .pure _
  refine (test_steady _).cond ?_ ?_
  · exact Steady.bind (read_steady (Cursor.text_skip false)) fun value => .pure _
  exact (test_steady _).cond (identifier_steady.bind fun name => .pure _) (.pure none)

theorem suffixes_steady (e : Expr) : Steady n (suffixes operand e) := by
  refine iterate_steady (fun e => here_steady.bind fun p => ?_) e
  refine (accept_steady _).cond ?_ ?_
  · exact (requiredWith_steady ho).bind fun i => (expect_steady _).bind fun _ => .pure _
  refine (accept_steady _).cond ((arguments_steady ho).bind fun l => .pure _) ?_
  exact (accept_steady _).cond (.pure _) ((accept_steady _).cond (.pure _) (.pure _))

theorem sizedType?_steady : Steady n (sizedType? operand) := by
  refine mark_agrees.bind fun start start' hstart => ?_
  obtain ⟨rfl, hstart⟩ := hstart
  refine (accept_steady _).cond (typeStarts_steady.cond ?_ ?_) (.pure none)
  · exact (typeInParens_steady ho).bind fun t => .pure _
  · exact (restore_steady hstart).bind fun _ => .pure none

theorem prefixedBy_steady (p : Position) (op : PrefixOp) :
    Steady n (prefixedBy operand p op) := by
  have hnone : Steady n (do return Expr.prefixed op (← required operand) p) :=
    (required_steady ho).bind fun e => .pure _
  rw [prefixedBy]
  split_ifs
  · exact (sizedType?_steady ho).option (fun t => .pure _) hnone
  · exact hnone

theorem operandStep_steady : Steady n (operandStep operand) := by
  refine here_steady.bind fun p => (firstAccepted_steady _ _).option (fun op => ?_) ?_
  · exact (prefixedBy_steady ho p op).bind fun e => .pure _
  · refine (primary_steady ho p).option (fun e => ?_) (.pure none)
    exact (suffixes_steady ho e).bind fun e' => .pure _

end Operand

theorem operandWithin_steady : ∀ b : Bytes, Steady n (operandWithin b)
  | [] => throw_steady _
  | _ :: b => operandStep_steady (operandWithin_steady b)

theorem operand_steady : Steady n operand := budget_steady.bind operandWithin_steady

theorem expression_steady : Steady n expression := expressionWith_steady operand_steady

theorem requiredExpression_steady : Steady n requiredExpression :=
  requiredWith_steady operand_steady

theorem declarator_steady (naming : Naming) : Steady n (declarator naming) :=
  declaratorWith_steady requiredExpression_steady naming

/-! ### Statements -/

theorem expressionUpTo_steady (w : Bytes) : Steady n (expressionUpTo w) :=
  expression_steady.bind fun e => (expect_steady w).bind fun _ => .pure e

theorem condition_steady : Steady n condition :=
  (expect_steady _).bind fun _ => requiredExpression_steady.bind fun e =>
    (expect_steady _).bind fun _ => .pure e

theorem initialValue_steady : Steady n initialValue := by
  refine (accept_steady _).cond ?_ ((expect_steady _).bind fun _ => .pure none)
  exact requiredExpression_steady.bind fun e => (expect_steady _).bind fun _ => .pure _

section Statement
variable {statement : Parser Stmt} (hs : Steady n statement)

include hs

theorem bodyWith_steady : Steady n (bodyWith statement) := by
  refine (expect_steady _).bind fun _ => Steady.bind (iterate_steady (fun found => ?_) [])
    fun found => (expect_steady _).bind fun _ => .pure found
  refine atEnd_steady.cond (.pure _) ((peek_steady _).cond (.pure _) ?_)
  exact hs.bind fun s => .pure _

theorem ifWith_steady (p : Position) : Steady n (ifWith statement p) := by
  refine condition_steady.bind fun c => (bodyWith_steady hs).bind fun body => ?_
  exact (accept_steady _).cond ((bodyWith_steady hs).bind fun _ => .pure _) (.pure _)

theorem whileWith_steady (p : Position) : Steady n (whileWith statement p) :=
  condition_steady.bind fun _ => (bodyWith_steady hs).bind fun _ => .pure _

theorem doWith_steady (p : Position) : Steady n (doWith statement p) :=
  (bodyWith_steady hs).bind fun _ => (expect_steady _).bind fun _ =>
    condition_steady.bind fun _ => (expect_steady _).bind fun _ => .pure _

theorem forWith_steady (p : Position) : Steady n (forWith statement p) :=
  (expect_steady _).bind fun _ => hs.bind fun _ => (expressionUpTo_steady _).bind fun _ =>
    (expressionUpTo_steady _).bind fun _ => (bodyWith_steady hs).bind fun _ => .pure _

theorem statementStep_steady : Steady n (statementStep statement) := by
  refine here_steady.bind fun p => ?_
  refine (accept_steady _).cond ((expressionUpTo_steady _).bind fun e => .pure _) ?_
  refine (accept_steady _).cond (ifWith_steady hs p) ?_
  refine (accept_steady _).cond (whileWith_steady hs p) ?_
  refine (accept_steady _).cond (doWith_steady hs p) ?_
  refine (accept_steady _).cond (forWith_steady hs p) ?_
  refine typeStarts_steady.cond ?_ ((expressionUpTo_steady _).bind fun e => .pure _)
  exact (declarator_steady .named).bind fun x => initialValue_steady.bind fun e => .pure _

end Statement

theorem statementWithin_steady : ∀ b : Bytes, Steady n (statementWithin b)
  | [] => throw_steady _
  | _ :: b => statementStep_steady (statementWithin_steady b)

theorem statement_steady : Steady n statement := budget_steady.bind statementWithin_steady

/-! ### Definitions -/

theorem structBody_steady (name : Bytes) (p : Position) : Steady n (structBody name p) := by
  refine (declareType_steady name).bind fun _ => (expect_steady _).bind fun _ => ?_
  refine Steady.bind (iterate_steady (fun found => ?_) []) fun members => ?_
  · refine typeStarts_steady.cond (here_steady.bind fun q => ?_) (.pure _)
    exact (declarator_steady .named).bind fun x => (expect_steady _).bind fun _ => .pure _
  · exact (expect_steady _).bind fun _ => (accept_steady _).bind fun _ => .pure _

theorem enumeratorValue_steady : Steady n enumeratorValue :=
  (accept_steady _).cond (requiredExpression_steady.bind fun _ => .pure _) (.pure none)

theorem enumBody_steady (name : Bytes) (p : Position) : Steady n (enumBody name p) := by
  refine (expect_steady _).bind fun _ => ?_
  refine Steady.bind (iterate_steady (fun found => ?_) []) fun members => ?_
  · refine (test_steady _).cond (identifier_steady.bind fun member => ?_) (.pure _)
    exact enumeratorValue_steady.bind fun e => (accept_steady _).cond (.pure _) (.pure _)
  · exact (expect_steady _).bind fun _ => (accept_steady _).bind fun _ =>
      (declareType_steady name).bind fun _ => .pure _

theorem typeDefinition_steady (p : Position) : Steady n (typeDefinition p) :=
  (declarator_steady .named).bind fun x => (expect_steady _).bind fun _ =>
    (declareType_steady x.2).bind fun _ => .pure _

theorem parameters_steady : Steady n parameters := by
  refine iterate_steady (fun found => typeStarts_steady.cond ?_ ?_) []
  · refine (declarator_steady .optional).bind fun x => (accept_steady _).cond (.pure _) ?_
    exact (expect_steady _).bind fun _ => .pure _
  · exact (expect_steady _).bind fun _ => .pure _

theorem declaration_steady (p : Position) : Steady n (declaration p) := by
  refine typeStarts_steady.cond ?_ (unexpected_agrees _ _)
  refine (declarator_steady .named).bind fun x => (accept_steady _).cond ?_ ?_
  · refine parameters_steady.bind fun params => (accept_steady _).cond (.pure _) ?_
    exact (bodyWith_steady statement_steady).bind fun body => .pure _
  · exact initialValue_steady.bind fun e => .pure _

theorem tagged_steady {start : Cursor} (hstart : ¬ n <:+: start.text)
    {bodyOf : Bytes → Position → Parser Definition} (p : Position)
    (h : ∀ name, Steady n (bodyOf name p)) : Steady n (tagged start bodyOf p) := by
  refine identifier_steady.bind fun name => (peek_steady _).cond (h name) ?_
  exact (restore_steady hstart).bind fun _ => declaration_steady p

theorem definition_steady : Steady n definition := by
  refine here_steady.bind fun p => mark_agrees.bind fun start start' hstart => ?_
  obtain ⟨rfl, hstart⟩ := hstart
  refine (accept_steady _).cond (tagged_steady hstart p fun name => structBody_steady name p) ?_
  refine (accept_steady _).cond (tagged_steady hstart p fun name => enumBody_steady name p) ?_
  exact (accept_steady _).cond (typeDefinition_steady p) (declaration_steady p)

/-- **The name makes no difference to a whole program.** -/
theorem program_steady : Steady n program :=
  iterate_steady (fun _ => atEnd_steady.cond (.pure _) (definition_steady.bind fun _ => .pure _)) []

/-! ### Outcomes -/

/-- Runs that end alike are both accepted with the same value, or both refused at the same position
where the same was found. -/
theorem outcome_of_endAlike {α : Type} {r r' : EStateM.Result Failure ParserState α}
    (h : EndAlike n (· = ·) r r') :
    (∃ a, outcome r = .ok a ∧ outcome r' = .ok a) ∨
      ∃ e e', outcome r = .error e ∧ outcome r' = .error e' ∧ e'.position = e.position ∧
        e'.found = e.found := by
  cases h with
  | @ok a _ s t value states =>
    subst value
    rw [outcome, outcome, states.scanner]
    cases s.scanner.fault with
    | none => exact .inl ⟨a, rfl, rfl⟩
    | some e => exact .inr ⟨e, e, rfl, rfl, rfl, rfl⟩
  | @error e f s t site states =>
    rw [outcome, outcome, states.scanner]
    cases s.scanner.fault with
    | some e => exact .inr ⟨e, e, rfl, rfl, rfl, rfl⟩
    | none =>
      refine .inr ⟨_, _, rfl, rfl, ?_⟩
      cases e <;> cases f
      · exact Prod.mk.inj (Option.some.inj site)
      · cases site
      · cases site
      · exact ⟨rfl, rfl⟩

/-- **The name of a type that does not occur in a text makes no difference to its program.** Among
whatever types and modifiers a text is read with, one more name that the text does not hold gives
the same program, or an error at the same position where the same was found. -/
theorem parseProgram_unused_type {text n : Bytes} (h : ¬ n <:+: text)
    (file : Bytes) (before after modifiers : List Bytes) :
    let without := (parseProgram text file (.extend .initial (before ++ after) modifiers)).1
    let added := (parseProgram text file (.extend .initial (before ++ n :: after) modifiers)).1
    (∃ p, without = .ok p ∧ added = .ok p) ∨
      ∃ e e', without = .error e ∧ added = .error e' ∧ e'.position = e.position ∧
        e'.found = e.found := by
  refine outcome_of_endAlike (n := n) (program_steady ⟨rfl, ?_, ?_⟩)
  · have htext : (Scanner.ofText text file).cursor.text = text := Cursor.text_skip false _
    rw [start, htext]
    exact h
  · exact Vocabulary.beside_extend Vocabulary.grown_initial.ordered before after modifiers

/-- A member without a base type is reported with all names of types, so what is expected differs,
but nothing else. -/
theorem parseProgram_unused_type_missing :
    let text := ascii "struct s \x7b s *next; const x; \x7d"
    let n := ascii "list"
    ¬ n <:+: text ∧ ∃ e e', (parseProgram text [] .initial).1 = .error e ∧
      (parseProgram text [] (.extend .initial [n] [])).1 = .error e' ∧ e'.expected ≠ e.expected ∧
      e'.position = e.position ∧ e'.found = e.found := by
  intro text n
  have habsent : ¬ n <:+: text := by decide +kernel
  have hfail : (parseProgram text [] .initial).1.isOk = false := by decide +kernel
  have hexpected : ((parseProgram text [] (.extend .initial [n] [])).1.map fun _ => ()).mapError
      SyntaxError.expected ≠
      ((parseProgram text [] .initial).1.map fun _ => ()).mapError SyntaxError.expected := by
    decide +kernel
  have hsame := parseProgram_unused_type habsent [] [] [] []
  rw [List.nil_append, List.nil_append, Vocabulary.extend_nil] at hsame
  rcases hsame with ⟨p, hp, -⟩ | ⟨e, e', he, he', hsame⟩
  · rw [hp] at hfail
    cases hfail
  · rw [he, he'] at hexpected
    exact ⟨habsent, e, e', he, he', fun h => hexpected (congrArg Except.error h), hsame⟩

end Grammar

end MiniC
