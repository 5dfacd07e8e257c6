import Mathlib.Data.List.TakeDrop
import MiniC.Proofs.Grammar.Contract.Rules
import MiniC.Syntax.Printer

/-!
# Contracts of declarators and expressions

A declarator takes a byte at least and is `Declared`: it uses words of the vocabulary for its base
type. An operand or an expression takes a byte at least, or there is none and everything is left as
it was. What is read is `Formed`, so that all base types in it are known.

The parser of an inner operand comes with a bound: it keeps its contract where fewer than `n` bytes
are left. Every inner operand stands behind a byte of the outer one, so that one level more allows
one byte more (`operandStep_finds`), and the budget of `operand` is enough.
-/

namespace MiniC.Grammar

open MiniC.Parser Scan

variable {v : Vocabulary} {o c : Cursor} {m n : Nat}

/-! ### Base types -/

theorem typeStarts_ensures {P : Assertion} : Ensures P typeStarts fun _ => P := by
  have hget : Ensures P get fun _ => P := look_ensures fun _ => rfl
  refine hget.bind fun st => ?_
  exact (firstPeeked_ensures id _).bind fun _ => .pure fun _ _ => id

/-- Each modifier that is found takes a byte at least, and none is found only where none stands. -/
theorem modifierPass_ensures : ∀ {l : List Bytes}, [] ∉ l → ∀ {c : Cursor},
    Ensures (At v c) (modifierPass l) fun found v' c' =>
      ((∀ w ∈ found, w ∈ l) ∧ (found = [] → c' = c ∧ ∀ w ∈ l, leads w c.rest = false)) ∧
        Behind v c found.length v' c'
  | [], _, _ => .pure fun _ _ hs =>
    ⟨⟨List.forall_mem_nil _, fun _ => ⟨hs.2, List.forall_mem_nil _⟩⟩, .of_at hs⟩
  | w :: l, hl, c => by
    obtain ⟨hw, hrest⟩ := List.ne_and_not_mem_of_not_mem_cons hl
    refine (accept_tells hw.symm).bind_of fun b hb => ?_
    cases b with
    | true =>
      refine .of_forall_at fun c₁ hc₁ => ?_
      refine (modifierPass_ensures hrest).bind fun found => .pure fun v' c' hs => ⟨⟨?_, ?_⟩, ?_⟩
      · exact List.forall_mem_cons.2
          ⟨List.mem_cons_self, fun u hu => List.mem_cons_of_mem w (hs.1.1 u hu)⟩
      · exact fun h => absurd h (List.cons_ne_nil _ _)
      · refine (Behind.trans hc₁ hs.2).mono ?_
        rw [List.length_cons]
        omega
    | false =>
      refine (modifierPass_ensures hrest).post fun found v' c' hs =>
        ⟨⟨fun u hu => List.mem_cons_of_mem w (hs.1.1 u hu), fun h => ?_⟩, hs.2⟩
      obtain ⟨hc', hmiss⟩ := hs.1.2 h
      exact ⟨hc', List.forall_mem_cons.2 ⟨hb.symm, hmiss⟩⟩

theorem modifiers_ensures (hv : v.Proper) :
    Ensures (Behind v o m) modifiers fun found v' c' =>
      (∀ w ∈ found, w ∈ v.modifiers) ∧ (∀ w ∈ v.modifiers, leads w c'.rest = false) ∧
        Behind v o (m + found.length) v' c' := by
  refine get_walks.bind fun st hst => ?_
  rw [hst]
  -- the loop has passed a byte at least for each modifier it found
  refine (iterate_ensures (I := fun (found : List Bytes) v' c' =>
    (∀ w ∈ found, w ∈ v.modifiers) ∧ Behind v o (m + found.length) v' c')
    (fun found c => ?_) []).pre fun v' c' hs => ⟨List.forall_mem_nil _, hs⟩
  rintro s ⟨rfl, hfound, hs⟩
  refine Ensures.bind (modifierPass_ensures hv.modifiers) (fun more => .pure fun v' c' hmore => ?_)
    s ⟨hs.1, rfl⟩
  have hbehind := Behind.trans hs.2 hmore.2
  cases more with
  | nil =>
    obtain ⟨rfl, hmiss⟩ := hmore.1.2 rfl
    exact ⟨hfound, hmiss, hbehind.mono (by simp)⟩
  | cons w more =>
    refine ⟨hmore.2.2.mono (by simp), List.forall_mem_append.2 ⟨hfound, hmore.1.1⟩, ?_⟩
    exact hbehind.mono (by simp; omega)

theorem withoutLast?_eq_some {α : Type} {inClass : α → Bool} {l l' : List α} {a : α}
    (h : withoutLast? inClass l = some (l', a)) :
    a ∈ l ∧ inClass a = true ∧ ∀ b ∈ l', b ∈ l := by
  unfold withoutLast? at h
  rw [List.span_eq_takeWhile_dropWhile] at h
  have hsplit := List.takeWhile_append_dropWhile (p := fun a => !inClass a) (l := l.reverse)
  have hmem : ∀ b, b ∈ l.reverse ↔ b ∈ l := fun b => List.mem_reverse
  cases hdrop : l.reverse.dropWhile (fun a => !inClass a) with
  | nil =>
    rw [hdrop] at h
    cases h
  | cons x before =>
    have hclass := List.head_dropWhile_not (fun a => !inClass a) (l := l.reverse)
      (by rw [hdrop]; exact List.cons_ne_nil _ _)
    rw [hdrop] at h hsplit
    simp only [hdrop, List.head_cons, Bool.not_eq_false'] at hclass
    cases h
    refine ⟨?_, hclass, fun b hb => ?_⟩
    · rw [← hmem, ← hsplit]
      exact List.mem_append_right _ List.mem_cons_self
    · rw [← hmem, ← hsplit]
      rw [List.mem_append, List.mem_reverse, List.mem_reverse] at hb
      rcases hb with hb | hb
      · exact List.mem_append_right _ (List.mem_cons_of_mem _ hb)
      · exact List.mem_append_left _ hb

/-- A base type is implied by some modifier only, and it is known. -/
theorem impliedBase?_eq_some {found rest : List Bytes} {name : Bytes}
    (h : impliedBase? v found = some (rest, name)) (hfound : ∀ w ∈ found, w ∈ v.modifiers) :
    found ≠ [] ∧ v.Knows ⟨rest, name⟩ := by
  unfold impliedBase? at h
  cases hlast : withoutLast? v.isType found with
  | some base =>
    rw [hlast] at h
    cases h
    obtain ⟨hmem, hclass, hrest⟩ := withoutLast?_eq_some hlast
    have htype : name ∈ v.types := by simpa [Vocabulary.isType] using hclass
    exact ⟨List.ne_nil_of_mem hmem, .inl htype, fun w hw => hfound w (hrest w hw)⟩
  | none =>
    rw [hlast] at h
    dsimp only at h
    split_ifs at h with hsign
    cases h
    refine ⟨?_, .inr rfl, hfound⟩
    rintro rfl
    cases hsign

/-- A base type is known. If it is a modifier too, no word of the vocabulary stands behind it. -/
theorem baseType_ensures (hv : v.Proper) :
    Ensures (Behind v o m) baseType fun b v' c' =>
      v.Knows ⟨b.1, b.2⟩ ∧
        (b.2 ∈ v.modifiers → ∀ w ∈ v.modifiers ++ v.types, leads w c'.rest = false) ∧
        Behind v o (m + 1) v' c' := by
  refine (modifiers_ensures hv).bind_of fun found hfound => .of_each fun v' c hs => ?_
  obtain ⟨hmiss, rfl, hmoves⟩ := hs
  refine get_at.bind_of fun st hst => ?_
  dsimp only
  rw [hst]
  refine (firstAccepted_ensures fun w hw h₀ => hv.types (h₀ ▸ hw)).bind_of fun r hr => ?_
  cases r with
  | some name =>
    have hlead : leads name c.rest = true :=
      List.find?_some (p := fun w => leads (id w) c.rest) hr.symm
    refine .pure fun v₁ c₁ hs => ⟨⟨.inl (List.mem_of_find?_eq_some hr.symm), hfound⟩, ?_, ?_⟩
    · intro hname
      rw [hmiss name hname] at hlead
      cases hlead
    · exact (Behind.trans hmoves hs.2).mono (by omega)
  | none =>
    dsimp only
    cases himplied : impliedBase? v' found with
    | none => exact unexpected_ensures _
    | some base =>
      obtain ⟨rest, name⟩ := base
      obtain ⟨hne, hknown⟩ := impliedBase?_eq_some himplied hfound
      have hpos := List.length_pos_of_ne_nil hne
      refine .pure fun v₁ c₁ hs => ⟨hknown, fun _ w hw => ?_, ?_⟩
      · rw [hs.2]
        rcases List.mem_append.1 hw with hw | hw
        · exact hmiss w hw
        · exact Bool.not_eq_true _ ▸ List.find?_eq_none.1 hr.symm w hw
      · exact (Behind.trans hmoves (.of_at hs)).mono (by omega)

/-! ### Declarators -/

/-- What a declarator gives: a type as the parser forms it, and a name if one is asked for. Where a
modifier serves as the base type, the name behind it is no word of the vocabulary. -/
structure Declared (v : Vocabulary) (naming : Naming) (x : TypeDesc × Bytes) : Prop where
  formed : x.1.Formed v
  isWord : naming = .named → MiniC.isWord x.2 = true
  apart : naming = .named → x.1.baseName ∈ v.modifiers → Printer.stars x.1 = 0 →
    x.2 ∉ v.modifiers ++ v.types

section Declarator
variable {t : TypeDesc}

/-- The type `t'` is pointers around `t`. -/
structure Points (v : Vocabulary) (t t' : TypeDesc) : Prop where
  formed : t'.Formed v
  isArray : t'.isArray = false
  baseName : t'.baseName = t.baseName

/-- Without a star, the cursor stays where it is. -/
theorem pointers_ensures {modifiers : List Bytes} {name : Bytes} {p : Position}
    (ht : v.Knows ⟨modifiers, name⟩) :
    Ensures (At v c) (pointers (.base modifiers name p)) fun t v' c' =>
      Points v (.base modifiers name p) t ∧ (Printer.layers t = 0 → c' = c) ∧
        Behind v c 0 v' c' := by
  refine (iterate_ensures (I := fun t v' c' => Points v (.base modifiers name p) t ∧
    (Printer.layers t = 0 → c' = c) ∧ Behind v c 0 v' c') (fun t c₁ => ?_) _).pre
    fun v' c' hs => ⟨⟨ht, rfl, rfl⟩, fun _ => hs.2, .of_at hs⟩
  refine .of_each fun v' c' hs => ?_
  obtain ⟨rfl, ht, hc, rfl, hs⟩ := hs
  refine (accept_at (by decide)).cond ?_ ?_
  · refine here_ensures.bind fun q => .pure fun v' c' hs' => ?_
    refine ⟨hs'.2, ⟨⟨ht.isArray, ht.formed⟩, rfl, ht.baseName⟩, fun h => ?_, ?_⟩
    · rw [Printer.layers] at h
      cases h
    · exact (Behind.trans hs hs').mono (Nat.zero_le _)
  · refine .pure fun v' c' hs' => ?_
    obtain ⟨rfl, rfl⟩ := hs'
    exact ⟨ht, hc, rfl, hs⟩

variable {length : Parser Expr} (hl : Takes v n length fun e => e.Formed v)

include hl

/-- Brackets leave the base type and the stars of a type as they are. -/
theorem arrays_walks (hm : o.rest.length < n + m) (ht : t.Formed v) :
    Walks v o m (arrays length t) m fun t' =>
      t'.Formed v ∧ t'.baseName = t.baseName ∧ Printer.stars t' = Printer.stars t := by
  refine iterate_walks (A := fun t' => t'.Formed v ∧ TypeDesc.baseName t' = t.baseName ∧
    Printer.stars t' = Printer.stars t) (fun c t' hc ht' => ?_) ⟨ht, rfl, rfl⟩
  obtain ⟨hformed, hbase⟩ := ht'
  refine (accept_behind (by decide)).cond ?_ (done ⟨hformed, hbase⟩)
  refine here_ensures.bind fun p => ?_
  refine (accept_behind (by decide)).cond (again ⟨hformed, hbase⟩ (by omega)) ?_
  refine (hl (by omega)).bind fun e he => ?_
  refine (expect_walks (by decide)).bind fun _ _ => ?_
  exact again ⟨⟨hformed, he⟩, hbase⟩ (by omega)

omit hl in
theorem declaredName_ensures : ∀ naming : Naming,
    Ensures (At v c) (declaredName naming) fun name v' c' =>
      (naming = .named → isWord name = true ∧ leads name c.rest = true) ∧ Behind v c 0 v' c'
  | .named => identifier_at.post fun _ _ _ hs => ⟨fun _ => hs.1, hs.2.mono (Nat.zero_le 1)⟩
  | .nameless => .pure fun _ _ hs => ⟨(by cases ·), .of_at hs⟩
  | .optional => by
    refine (test_ensures _).fork ?_ (.pure fun _ _ hs => ⟨(by cases ·), .of_at hs⟩)
    exact identifier_at.post fun _ _ _ hs => ⟨fun _ => hs.1, hs.2.mono (Nat.zero_le 1)⟩

theorem declaratorWith_takes (hv : v.Proper) (naming : Naming) :
    Takes v n (declaratorWith length naming) (Declared v naming) := by
  intro o m hm
  refine here_ensures.bind fun p => ?_
  refine (baseType_ensures hv).bind_of fun b hb => ?_
  obtain ⟨found, base⟩ := b
  dsimp only at hb ⊢
  -- the words behind the base type matter only if nothing stands between it and the name
  refine .of_each fun v' c hs => ?_
  obtain ⟨hapart, rfl, hc⟩ := hs
  refine (pointers_ensures hb).bind_of fun t ht => .of_each fun v'' c₁ hs₁ => ?_
  obtain ⟨hstay, rfl, hc₁⟩ := hs₁
  refine (declaredName_ensures naming).bind_of fun name hname => ?_
  refine Ensures.pre (Q := Behind v'' o (m + 1)) ?_ fun v' c' hc' =>
    (Behind.trans (hc.trans hc₁) hc').mono (by omega)
  refine (arrays_walks hl (by omega) ht.formed).bind fun u hu => ?_
  obtain ⟨hformed, hbase, hstars⟩ := hu
  refine Walks.pure ⟨hformed, fun h => (hname h).1, fun h hmod hzero hmem => ?_⟩ (Nat.le_refl _)
  rw [hbase, ht.baseName] at hmod
  have hlayers : Printer.layers t = 0 := by
    rw [← hzero, hstars]
    have harray := ht.isArray
    cases t <;> first | rfl | cases harray
  have hlead := (hname h).2
  rw [hstay hlayers, hapart hmod name hmem] at hlead
  cases hlead

end Declarator

/-! ### Expressions -/

theorem required_takes {q : Parser (Option Expr)} {A : Expr → Prop} (h : Finds v n q A) :
    Takes v n (required q) A := by
  intro o m hm
  exact h.bind hm (fun e he => Walks.pure he (Nat.le_refl _)) (unexpected_ensures _)

section Operand
variable {operand : Parser (Option Expr)}
  (ho : Finds v n operand fun e => e.Formed v)

include ho

/-- An operator and its right operand take more than one byte, so the budget is enough. -/
theorem climbWithin_walks : ∀ (b : Bytes) (level : Nat) (left : Expr) {m : Nat},
    o.rest.length < b.length + m → o.rest.length < n + m → left.Formed v →
    Walks v o m (climbWithin operand b level left) m fun e => e.Formed v
  | [], level, left, m, hb, _, _ => by
    intro s hs
    have hlength := hs.2.length_rest
    rw [List.length_nil] at hb
    omega
  | x :: b, level, left, m, hb, hm, hleft => by
    rw [climbWithin]
    rw [List.length_cons] at hb
    refine (firstPeeked_ensures _ _).bind fun op? => ?_
    cases op? with
    | none => exact Walks.pure hleft (Nat.le_refl m)
    | some op =>
      dsimp only
      split
      · exact Walks.pure hleft (Nat.le_refl m)
      refine here_ensures.bind fun p => ?_
      refine (accept_walks (by cases op <;> decide)).bind fun _ _ => ?_
      refine (required_takes ho hm).bind fun first hfirst => ?_
      refine (climbWithin_walks b op.rightLevel first (by omega) (by omega) hfirst).bind
        fun right hright => ?_
      exact (climbWithin_walks b level (.binary op left right p) (by omega) (by omega)
        ⟨hleft, hright⟩).mono
        (fun _ => id) (Nat.le_succ m)

theorem expressionWith_finds :
    Finds v n (expressionWith operand) fun e => e.Formed v := by
  intro c hc
  refine (ho hc).option (fun left hleft => ?_) ?_
  · -- the budget is for the bytes behind the first operand, so the rest is seen from there
    refine .of_forall_at fun c₁ hc₁ => budget_ensures.bind_of fun b hb => ?_
    have hlength := hc₁.length_rest
    have hclimb := climbWithin_walks ho (o := c₁) b 0 left (m := 0) (by omega) (by omega) hleft
    exact (hclimb.rebase hc₁).bind_of fun e he => found he (Nat.le_refl 1)
  · refine (firstPeeked_ensures _ _).bind fun op? => ?_
    cases op? with
    | none => exact .pure fun _ _ => id
    | some op => exact unexpected_ensures _

theorem requiredWith_takes : Takes v n (requiredWith operand) fun e => e.Formed v :=
  required_takes (expressionWith_finds ho)

theorem typeInParens_takes (hv : v.Proper) :
    Takes v n (typeInParens operand) fun t => t.Formed v := by
  intro o m hm
  refine (declaratorWith_takes (requiredWith_takes ho) hv .nameless hm).bind fun x hx => ?_
  refine (expect_walks (by decide)).bind fun _ _ => ?_
  exact Walks.pure hx.1 (Nat.le_succ _)

theorem listItems_walks (hm : o.rest.length < n + m) :
    Walks v o m (listItems operand) m fun items => ∀ e ∈ items, e.Formed v := by
  refine iterate_walks (A := fun items => ∀ e ∈ items, e.Formed v)
    (fun c items hc hitems => ?_) (List.forall_mem_nil (Expr.Formed v))
  refine atEnd_ensures.fork (done (forall_mem_reverse hitems)) ?_
  refine (expressionWith_finds ho).bind (by omega) (fun e he => ?_) ?_
  · have hcons : ∀ e' ∈ e :: items, e'.Formed v :=
      List.forall_mem_cons.2 ⟨he, hitems⟩
    exact (accept_behind (by decide)).cond (again hcons (by omega))
      (done (forall_mem_reverse hcons))
  · exact (accept_behind (by decide)).cond (again hitems (by omega))
      (done (forall_mem_reverse hitems))

theorem arguments_takes :
    Takes v n (arguments operand) fun l => ∀ e ∈ l, e.Formed v := by
  intro o m hm
  refine (accept_behind (by decide)).cond
    (Walks.pure (List.forall_mem_nil (Expr.Formed v)) (Nat.le_refl _)) ?_
  refine Walks.bind (n := m) (A := fun l => ∀ e ∈ l, e.Formed v) ?_ fun l hl => ?_
  · refine iterate_walks (A := fun l => ∀ e ∈ l, e.Formed v)
      (fun c l hc hl => ?_) (List.forall_mem_nil (Expr.Formed v))
    refine (requiredWith_takes ho (by omega)).bind fun e he => ?_
    have hcons : ∀ e' ∈ e :: l, e'.Formed v := List.forall_mem_cons.2 ⟨he, hl⟩
    exact (accept_behind (by decide)).cond (again hcons (by omega))
      (done (forall_mem_reverse hcons))
  · exact (expect_walks (by decide)).bind fun _ _ => Walks.pure hl (Nat.le_refl _)

theorem parenthesized_takes (hv : v.Proper) (p : Position) :
    Takes v n (parenthesized operand p) fun e => e.Formed v := by
  intro o m hm
  refine typeStarts_ensures.fork ?_ ?_
  · refine (typeInParens_takes ho hv hm).bind fun t ht => ?_
    refine (required_takes ho (by omega)).bind fun e he => ?_
    exact Walks.pure (⟨ht, he⟩) (by omega)
  · refine (requiredWith_takes ho hm).bind fun e he => ?_
    exact (expect_walks (by decide)).bind fun _ _ => Walks.pure he (by omega)

/-- An inner operand of a primary expression stands behind its first byte. A name is the word at the
cursor, so it is not `sizeof` where that does not stand. -/
theorem primary_ensures (hv : v.Proper) (p : Position) (hc : c.rest.length < n + 1) :
    Ensures (At v c) (primary operand p)
      (Maybe v c fun e => leads (ascii "sizeof") c.rest = false → e.Formed v) := by
  refine (accept_at (by decide)).cond ?_ ?_
  · refine (parenthesized_takes ho hv p hc).bind fun e he => ?_
    exact found (fun _ => he) (by omega)
  refine (accept_at (by decide)).cond ?_ ?_
  · refine (listItems_walks ho hc).bind fun items hitems => ?_
    refine (expect_walks (by decide)).bind fun _ _ => ?_
    exact found (fun _ => Expr.allFormed_iff.2 hitems) (by omega)
  refine (acceptKeeping_at true (by decide)).cond ?_ ?_
  · refine character_walks.bind fun code _ => ?_
    exact (expect_walks (by decide)).bind fun _ _ => found (fun _ => trivial) (by omega)
  refine (test_ensures _).fork ?_ ?_
  · refine Ensures.at_of_behind (string_walks.bind fun text _ => ?_)
    exact found (fun _ => trivial) (by omega)
  refine (test_ensures _).fork ?_ ?_
  · refine Ensures.at_of_behind (number_walks.bind fun value hvalue => ?_)
    exact found (fun _ => hvalue) (by omega)
  refine (test_ensures _).fork ?_ (.pure fun _ _ => id)
  refine identifier_at.bind_of fun name hname => found (fun hsizeof => ⟨hname.1, ?_⟩) (by omega)
  rintro rfl
  have hlead := hname.2
  rw [hsizeof] at hlead
  cases hlead

theorem primary_finds (hv : v.Proper) (p : Position) :
    Finds v (n + 1) (primary operand p) fun _ => True := by
  intro c hc
  refine (primary_ensures ho hv p hc).post fun r v' c' hr => ?_
  cases r with
  | none => exact hr
  | some e => exact ⟨trivial, hr.2⟩

theorem suffixes_walks (hm : o.rest.length < n + m) {e : Expr} (he : e.Formed v) :
    Walks v o m (suffixes operand e) m fun e => e.Formed v := by
  refine iterate_walks (A := fun e => Expr.Formed v e) (fun c e hc he => ?_) he
  refine here_ensures.bind fun p => ?_
  refine (accept_behind (by decide)).cond ?_ ?_
  · refine (requiredWith_takes ho (by omega)).bind fun i hi => ?_
    refine (expect_walks (by decide)).bind fun _ _ => ?_
    exact again (⟨he, hi⟩) (by omega)
  refine (accept_behind (by decide)).cond ?_ ?_
  · refine (arguments_takes ho (by omega)).bind fun l hl => ?_
    have hl := Expr.allFormed_iff.2 hl
    exact again (⟨he, hl⟩) (by omega)
  refine (accept_behind (by decide)).cond (again he (by omega)) ?_
  exact (accept_behind (by decide)).cond (again he (by omega)) (done he)

/-- If no type follows the parenthesis, the way back leads to the same place. -/
theorem sizedType?_finds (hv : v.Proper) :
    Finds v n (sizedType? operand) fun t => t.Formed v := by
  intro c hc
  refine mark_ensures.bind_of fun start hstart => ?_
  subst hstart
  refine (accept_at (by decide)).cond ?_ (.pure fun _ _ => id)
  refine typeStarts_ensures.fork ?_ ?_
  · exact (typeInParens_takes ho hv (by omega)).bind fun t ht => found ht (by omega)
  · exact restore_ensures.bind fun _ => .pure fun _ _ => id

theorem prefixedBy_takes (hv : v.Proper) (p : Position) (op : PrefixOp) :
    Takes v n (prefixedBy operand p op) fun e => e.Formed v := by
  intro o m hm
  have hnone : Walks v o m (do return Expr.prefixed op (← required operand) p) (m + 1)
      fun e => e.Formed v :=
    (required_takes ho hm).bind fun e he => Walks.pure he (Nat.le_refl _)
  rw [prefixedBy]
  by_cases hop : op = .sizeOf
  · rw [if_pos hop]
    exact (sizedType?_finds ho hv).bind hm (fun t ht => Walks.pure ht (Nat.le_refl _)) hnone
  · rw [if_neg hop, pure_bind]
    exact hnone

/-- **One level of nesting more allows one byte more.** -/
theorem operandStep_finds (hv : v.Proper) :
    Finds v (n + 1) (operandStep operand) fun e => e.Formed v := by
  intro c hc
  refine here_ensures.bind fun p => ?_
  refine (firstAccepted_ensures (by decide)).bind_of fun op? hop => ?_
  cases op? with
  | some op =>
    refine Ensures.pre (Q := Behind v c 1) ?_ fun _ _ hs => hs.2
    exact (prefixedBy_takes ho hv p op hc).bind fun e he => found he (by omega)
  | none =>
    have hsizeof : leads (ascii "sizeof") c.rest = false :=
      Bool.not_eq_true _ ▸ List.find?_eq_none.1 hop.symm .sizeOf (by decide)
    refine (primary_ensures ho hv p hc).option (fun e he => ?_) (.pure fun _ _ => id)
    exact (suffixes_walks ho hc (he hsizeof)).bind fun e' he' => found he' (Nat.le_refl 1)

end Operand

theorem operandWithin_finds (hv : v.Proper) : ∀ b : Bytes,
    Finds v b.length (operandWithin b) fun e => e.Formed v
  | [] => fun _ hc => absurd hc (Nat.not_lt_zero _)
  | _ :: b => operandStep_finds (operandWithin_finds hv b) hv

theorem operand_finds (hv : v.Proper) : Finds v n operand fun e => e.Formed v := by
  intro c _
  exact budget_ensures.bind_of fun b hb => operandWithin_finds hv b (by omega)

theorem requiredExpression_forms (hv : v.Proper) :
    Walks v o m requiredExpression (m + 1) fun e => e.Formed v :=
  requiredWith_takes (operand_finds (n := o.rest.length + 1) hv) (by omega)

theorem declarator_forms (hv : v.Proper) (naming : Naming) :
    Walks v o m (declarator naming) (m + 1) (Declared v naming) :=
  declaratorWith_takes (requiredWith_takes (operand_finds (n := o.rest.length + 1) hv)) hv naming
    (by omega)

/-! ### Known base types -/

theorem Finds.mono {q : Parser (Option Expr)} {A B : Expr → Prop} (h : Finds v n q A)
    (hAB : ∀ e, A e → B e) : Finds v n q B := by
  intro c hc
  refine (h hc).post fun r v' c' hr => ?_
  cases r with
  | none => exact hr
  | some e => exact ⟨hAB e hr.1, hr.2⟩

theorem expression_finds (hv : v.Proper) : Finds v n expression fun e => v.KnowsAll e.baseTypes :=
  Finds.mono (expressionWith_finds (operand_finds hv)) Expr.knowsAll_of_formed

theorem requiredExpression_walks (hv : v.Proper) :
    Walks v o m requiredExpression (m + 1) fun e => v.KnowsAll e.baseTypes :=
  (requiredExpression_forms hv).mono Expr.knowsAll_of_formed (Nat.le_refl _)

theorem declarator_walks (hv : v.Proper) (naming : Naming) :
    Walks v o m (declarator naming) (m + 1) fun x =>
      v.KnowsAll x.1.baseTypes ∧ (naming = .named → isWord x.2 = true) :=
  (declarator_forms hv naming).mono
    (fun x hx => ⟨TypeDesc.knowsAll_of_formed x.1 hx.formed, hx.isWord⟩) (Nat.le_refl _)

end MiniC.Grammar
