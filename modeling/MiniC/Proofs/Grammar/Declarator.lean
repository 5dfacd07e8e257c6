import Mathlib.Data.List.TakeDrop
import MiniC.Proofs.Grammar.Operand

/-!
# Reading declarators

Rules for the parsers of declarators, in terms of the text at the cursor: `modifiers_reads`,
`baseType_reads`, `pointers_reads`, and `arrays_stop` where no brackets follow.

A word may be a modifier and a type, as `short` and `long` are. Where such a word is the base type,
it is read as one more modifier and taken back, and this needs a text behind it that starts with no
word of the vocabulary. A word that is only a type ends the modifiers, whatever follows it.
-/

namespace MiniC.Grammar

open MiniC.Parser MiniC.Scan

/-! ### Modifiers -/

/-- Words with a space behind each, and the rest of a text. -/
def wordsText (words : List Bytes) (r : Bytes) : Bytes :=
  words.flatMap (fun w => w ++ [ch ' ']) ++ r

theorem wordsText_cons (w : Bytes) (words : List Bytes) (r : Bytes) :
    wordsText (w :: words) r = w ++ ch ' ' :: wordsText words r := by
  simp [wordsText]

theorem solid_wordsText {words : List Bytes} {r : Bytes} (hw : ∀ w ∈ words, isWord w = true)
    (hr : r.head?.any isSolid = true) : (wordsText words r).head?.any isSolid = true := by
  cases words with
  | nil => exact hr
  | cons w words =>
    rw [wordsText_cons]
    exact head_append_of_isSolid (isSolid_of_isWord (hw w List.mem_cons_self)) _

/-- What a pass over `known` takes from the front of `words`, and what it leaves. -/
def passed : (known words : List Bytes) → List Bytes × List Bytes
  | [], words => ([], words)
  | _ :: _, [] => ([], [])
  | k :: known, w :: words =>
    if k = w then (w :: (passed known words).1, (passed known words).2)
    else passed known (w :: words)

theorem passed_append : ∀ known words : List Bytes,
    (passed known words).1 ++ (passed known words).2 = words
  | [], words => rfl
  | _ :: _, [] => rfl
  | k :: known, w :: words => by
    rw [passed]
    split_ifs
    · rw [List.cons_append, passed_append known words]
    · exact passed_append known (w :: words)

/-- A pass takes a word that it knows. -/
theorem passed_ne_nil {w : Bytes} (words : List Bytes) : ∀ {known : List Bytes}, w ∈ known →
    (passed known (w :: words)).1 ≠ []
  | k :: known, h => by
    rw [passed]
    split_ifs with hk
    · simp
    · rcases List.mem_cons.mp h with rfl | h
      · exact absurd rfl hk
      · exact passed_ne_nil words h

section Modifiers
variable {v : Vocabulary} {r : Bytes}

theorem modifierPass_reads (hr : r.head?.any isSolid = true) : ∀ (known words : List Bytes),
    (∀ k ∈ known, isWord k = true ∧ leads k r = false) → (∀ w ∈ words, isWord w = true) →
    Reads v (modifierPass known) (wordsText words r) (· = (passed known words).1)
      (wordsText (passed known words).2 r)
  | [], words, _, _ => Reads.pure rfl
  | k :: known, [], hk, hw => by
    have ih := modifierPass_reads hr known []
      (fun l hl => hk l (List.mem_cons_of_mem k hl)) hw
    have hnil : passed known [] = ([], []) := by cases known <;> rfl
    rw [hnil] at ih
    rw [modifierPass]
    refine (accept_misses (hk k List.mem_cons_self).2).bind_false ?_
    exact ih
  | k :: known, w :: words, hk, hw => by
    have hk' : ∀ l ∈ known, isWord l = true ∧ leads l r = false :=
      fun l hl => hk l (List.mem_cons_of_mem k hl)
    have hw' : ∀ u ∈ words, isWord u = true := fun u hu => hw u (List.mem_cons_of_mem w hu)
    have hsolid := solid_wordsText hw' hr
    have hlead : leads k (w ++ ch ' ' :: wordsText words r) = true ↔ k = w :=
      leads_word_iff (hk k List.mem_cons_self).1 (hw w List.mem_cons_self) rfl
    rw [modifierPass, passed]
    by_cases hkw : k = w
    · subst hkw
      rw [if_pos rfl, wordsText_cons]
      refine (accept_spaced hsolid).bind_true ?_
      exact (modifierPass_reads hr known words hk' hw').map fun found hf => by rw [hf]
    · have hmiss : leads k (wordsText (w :: words) r) = false := by
        rw [wordsText_cons, ← Bool.not_eq_true, hlead]
        exact hkw
      rw [if_neg hkw]
      refine (accept_misses hmiss).bind_false ?_
      exact modifierPass_reads hr known (w :: words) hk' hw

/-- **All modifiers in front of a text that starts with none are read,** in one or more passes. -/
theorem modifierStep_reads (hr : r.head?.any isSolid = true) {known : List Bytes}
    (hk : ∀ k ∈ known, isWord k = true ∧ leads k r = false) : ∀ (n : Bytes) (words : List Bytes)
    (found : List Bytes), (∀ w ∈ words, w ∈ known) → words.length < n.length →
    Reads v (iterateWithin (modifierStep known) n found) (wordsText words r) (· = found ++ words) r
  | [], words, found, _, hn => by simp at hn
  | b :: n, words, found, hw, hn => by
    have hwords : ∀ w ∈ words, isWord w = true := fun w h => (hk w (hw w h)).1
    rw [iterateWithin_cons, modifierStep, bind_assoc]
    refine (modifierPass_reads hr known words hk hwords).bind_eq ?_
    rw [pure_bind]
    cases words with
    | nil =>
      have hnil : passed known [] = ([], []) := by cases known <;> rfl
      rw [hnil]
      exact Reads.pure (by rw [List.append_nil])
    | cons w words =>
      -- a pass takes one word at least, so the words left for the next pass are fewer
      have hne := passed_ne_nil words (hw w List.mem_cons_self)
      have happ := passed_append known (w :: words)
      have hlen := congrArg List.length happ
      have hpos := List.length_pos_iff.mpr hne
      rw [List.length_append] at hlen
      rw [if_neg (by simpa using hne)]
      refine (modifierStep_reads hr hk n (passed known (w :: words)).2
        (found ++ (passed known (w :: words)).1) (fun u hu => hw u ?_)
        (by simp only [List.length_cons] at hn hlen ⊢; omega)).mono fun l hl => ?_
      · rw [← happ]
        exact List.mem_append_right _ hu
      · rw [hl, List.append_assoc, happ]

theorem length_le_wordsText (words : List Bytes) (r : Bytes) :
    words.length ≤ (wordsText words r).length := by
  induction words with
  | nil => exact Nat.zero_le _
  | cons w words ih =>
    rw [wordsText_cons]
    simp only [List.length_cons, List.length_append]
    omega

theorem modifiers_reads {words : List Bytes} (hr : r.head?.any isSolid = true)
    (hk : ∀ k ∈ v.modifiers, isWord k = true ∧ leads k r = false)
    (hw : ∀ w ∈ words, w ∈ v.modifiers) :
    Reads v modifiers (wordsText words r) (· = words) r := by
  rw [modifiers]
  refine get_reads.bind fun st hst => ?_
  rw [hst]
  refine iterate_reads fun n hn => ?_
  have := length_le_wordsText words r
  exact modifierStep_reads hr hk n words [] hw (by omega)

end Modifiers

/-! ### The base type -/

theorem impliedBase?_append {v : Vocabulary} {b : Bytes} (hb : v.isType b = true)
    (found : List Bytes) : impliedBase? v (found ++ [b]) = some (found, b) := by
  have hspan : (found ++ [b]).reverse.span (fun w => !v.isType w) = ([], b :: found.reverse) := by
    rw [List.reverse_append, List.reverse_singleton, List.singleton_append,
      List.span_eq_takeWhile_dropWhile]
    simp [hb]
  rw [impliedBase?, withoutLast?, hspan]
  simp

/-- **A base type is read back behind its modifiers,** with a space behind it. -/
theorem baseType_reads {v : Vocabulary} (hv : IdentifiersOnly v) {words : List Bytes}
    {base r : Bytes} (hr : r.head?.any isSolid = true) (hw : ∀ w ∈ words, w ∈ v.modifiers)
    (hb : base ∈ v.types)
    (hmiss : base ∈ v.modifiers → ∀ w ∈ v.modifiers ++ v.types, leads w r = false) :
    Reads v baseType (wordsText (words ++ [base]) r) (· = (words, base)) r := by
  have hword : isWord base = true := hv base (List.mem_append_right _ hb)
  rw [baseType]
  by_cases hmod : base ∈ v.modifiers
  · -- the base type is read as one more modifier and taken back
    have htype : v.isType base = true := by simpa [Vocabulary.isType] using hb
    have hall : ∀ w ∈ words ++ [base], w ∈ v.modifiers := by
      intro w h
      rcases List.mem_append.mp h with h | h
      · exact hw w h
      · rwa [List.mem_singleton.mp h]
    refine (modifiers_reads hr (fun k hk => ?_) hall).bind_eq ?_
    · have hmem := List.mem_append_left v.types hk
      exact ⟨hv k hmem, hmiss hmod k hmem⟩
    · refine get_reads.bind fun st hst => ?_
      rw [hst]
      refine (firstAccepted_misses fun w h =>
        hmiss hmod w (List.mem_append_right _ h)).bind_eq ?_
      dsimp only
      rw [impliedBase?_append htype]
      exact Reads.pure rfl
  · -- the modifiers end in front of the base type
    have hsplit : wordsText (words ++ [base]) r = wordsText words (base ++ ch ' ' :: r) := by
      simp [wordsText]
    rw [hsplit]
    refine (modifiers_reads (head_append_of_isSolid (isSolid_of_isWord hword) _)
      (fun k hk => ?_) hw).bind_eq ?_
    · have hkw := hv k (List.mem_append_left _ hk)
      refine ⟨hkw, ?_⟩
      rw [← Bool.not_eq_true, leads_word_iff hkw hword rfl]
      rintro rfl
      exact hmod hk
    · refine get_reads.bind fun st hst => ?_
      rw [hst]
      have hfind := find?_leads_word (r := ch ' ' :: r)
        (fun w h => hv w (List.mem_append_right _ h)) hword rfl hb
      have hdrop : (ch ' ' :: r).dropWhile isSpace = r := dropWhile_isSpace_of_isSolid hr
      have hfound := firstAccepted_finds (v := v) rfl (fun _ => rfl)
        (by rw [hdrop]; exact settled_of_isSolid hr) hfind
      rw [hdrop] at hfound
      refine hfound.bind_eq ?_
      exact Reads.pure rfl

/-! ### Stars and brackets -/

/-- A star, with or without a space behind it. -/
def IsStar (s : Bytes) : Prop := s = ascii "*" ∨ s = ascii "* "

theorem solid_stars {stars : List Bytes} (hs : ∀ s ∈ stars, IsStar s) {r : Bytes}
    (hr : r.head?.any isSolid = true) : (stars.flatten ++ r).head?.any isSolid = true := by
  cases stars with
  | nil => exact hr
  | cons s stars => rcases hs s List.mem_cons_self with rfl | rfl <;> rfl

/-- Each star wraps the type once. -/
theorem pointerStep_reads {v : Vocabulary} {r : Bytes} (hr : r.head?.any isSolid = true)
    (hmiss : leads (ascii "*") r = false) : ∀ (n : Bytes) (stars : List Bytes) (t : TypeDesc),
    (∀ s ∈ stars, IsStar s) → stars.length < n.length →
    Reads v (iterateWithin pointerStep n t) (stars.flatten ++ r)
      (fun t' => ∃ ps : List Position, ps.length = stars.length ∧ t' = ps.foldl .pointer t) r
  | [], stars, t, _, hn => by simp at hn
  | b :: n, [], t, _, hn => by
    rw [iterateWithin_cons, pointerStep, bind_assoc]
    refine (accept_misses hmiss).bind_eq ?_
    rw [if_neg (by simp), pure_bind]
    exact Reads.pure ⟨[], rfl, rfl⟩
  | b :: n, s :: stars, t, hs, hn => by
    have hs' : ∀ s ∈ stars, IsStar s := fun u hu => hs u (List.mem_cons_of_mem s hu)
    have hsolid := solid_stars hs' hr
    have haccept : Reads v (accept (ascii "*")) ((s :: stars).flatten ++ r) (· = true)
        (stars.flatten ++ r) := by
      rw [List.flatten_cons, List.append_assoc]
      rcases hs s List.mem_cons_self with rfl | rfl
      · exact accept_solid (w := ascii "*") rfl (fun hw => by cases hw) hsolid
      · exact accept_spaced (w := ascii "*") hsolid
    rw [iterateWithin_cons, pointerStep, bind_assoc]
    refine haccept.bind_eq ?_
    rw [if_pos rfl, bind_assoc]
    refine here_reads.bind fun p _ => ?_
    rw [pure_bind]
    refine (pointerStep_reads hr hmiss n stars (.pointer t p) hs'
      (Nat.lt_of_succ_lt_succ hn)).mono ?_
    rintro t' ⟨ps, hlength, rfl⟩
    exact ⟨p :: ps, by rw [List.length_cons, List.length_cons, hlength], rfl⟩

theorem pointers_reads {v : Vocabulary} {r : Bytes} (hr : r.head?.any isSolid = true)
    (hmiss : leads (ascii "*") r = false) {stars : List Bytes} (hs : ∀ s ∈ stars, IsStar s)
    (t : TypeDesc) :
    Reads v (pointers t) (stars.flatten ++ r)
      (fun t' => ∃ ps : List Position, ps.length = stars.length ∧ t' = ps.foldl .pointer t) r := by
  have hlen : stars.length ≤ (stars.flatten ++ r).length := by
    induction stars with
    | nil => exact Nat.zero_le _
    | cons s stars ih =>
      have ih := ih fun u hu => hs u (List.mem_cons_of_mem s hu)
      have hpos : 0 < s.length := by rcases hs s List.mem_cons_self with rfl | rfl <;> decide
      simp only [List.flatten_cons, List.length_append, List.length_cons] at ih ⊢
      omega
  exact iterate_reads fun n hn => pointerStep_reads hr hmiss n stars t hs (by omega)

theorem arrays_stop {v : Vocabulary} {length : Parser Expr} {t : TypeDesc} {s : Bytes}
    (h : leads (ascii "[") s = false) : Reads v (arrays length t) s (· = t) s := by
  refine iterate_reads fun n hn => ?_
  cases n with
  | nil => simp at hn
  | cons b n =>
    rw [iterateWithin_cons, arrayStep, bind_assoc]
    refine (accept_misses h).bind_eq ?_
    rw [if_neg (by simp), pure_bind]
    exact Reads.pure rfl

end MiniC.Grammar
