import MiniC.Grammar.Parser
import MiniC.Proofs.Scan.Lookahead

/-!
# What a parser reads

`Reads v p s Q t` says that the parser `p`, run under the vocabulary `v` where the text `s` is left,
succeeds with a value in `Q` and stands at the text `t` then; the vocabulary is the same and no
comment was found open. Position and line starts are left out: the texts these rules are for hold
no line marker and no comment. There is one rule for each operation of `Parser`, and `Reads.bind`
puts parsers together.
-/

namespace MiniC

open Scan

/-- The parser stands at the text `s` under the vocabulary `v`, and met no open comment. -/
structure ParserState.At (st : ParserState) (s : Bytes) (v : Vocabulary) : Prop where
  rest : st.scanner.cursor.rest = s
  fault : st.scanner.fault = none
  vocabulary : st.vocabulary = v

/-- Skipping white space in front of a settled text. -/
theorem ParserState.At.skip {st : ParserState} {s : Bytes} {v : Vocabulary} (hst : st.At s v)
    {n : Nat} (ht : Settled ((s.drop n).dropWhile isSpace)) :
    ParserState.At { st with scanner := (st.scanner.advanceBy n).skip false }
      ((s.drop n).dropWhile isSpace) v := by
  have hr : (st.scanner.advanceBy n).cursor.rest = s.drop n := by
    simp [Scanner.advanceBy, hst.rest]
  obtain ⟨h₁, h₂⟩ := skip_spaces (s := st.scanner.advanceBy n) (by rw [hr]; exact ht)
  exact ⟨by rw [h₁, hr], by rw [h₂]; exact hst.fault, hst.vocabulary⟩

theorem leads_append {word r : Bytes} (h : isWord word = true → r.head?.any isIdent = false) :
    leads word (word ++ r) = true := by
  have hp : word.isPrefixOf (word ++ r) = true :=
    List.isPrefixOf_iff_prefix.mpr (List.prefix_append word r)
  rw [leads, hp, List.drop_left]
  cases hw : isWord word with
  | false => rfl
  | true => rw [h hw]; rfl

theorem leads_of_head_ne {b : UInt8} {word s : Bytes} (h : s.head? ≠ some b) :
    leads (b :: word) s = false := by
  have hp : (b :: word).isPrefixOf s = false := by
    cases s with
    | nil => rfl
    | cons c s =>
      have hbc : (b == c) = false := beq_eq_false_iff_ne.mpr (by rintro rfl; exact h rfl)
      rw [List.isPrefixOf_cons_cons, hbc, Bool.false_and]
  rw [leads, hp, Bool.false_and]

/-- A text does not lead another if only the other one starts in the class. -/
theorem leads_of_class {inClass : UInt8 → Bool} {w s : Bytes}
    (hw : w.head?.any (fun b => !inClass b) = true) (hs : s.head?.any inClass = true) :
    leads w s = false := by
  cases w with
  | nil => simp at hw
  | cons b w =>
    refine leads_of_head_ne fun hb => ?_
    simp only [List.head?_cons, Option.any_some, Bool.not_eq_true'] at hw
    simp [hb, hw] at hs

theorem leads_of_isWord {word s : Bytes} (hw : isWord word = true)
    (hs : s.head?.any isIdentStart = false) : leads word s = false := by
  cases word with
  | nil => simp [isWord] at hw
  | cons b word =>
    refine leads_of_head_ne fun hb => ?_
    simp only [isWord, Bool.and_eq_true] at hw
    simp [hb, hw.1] at hs

theorem takeWhile_isIdent_append {w r : Bytes} (hw : isWord w = true)
    (hr : r.head?.any isIdent = false) : (w ++ r).takeWhile isIdent = w :=
  takeWhile_append_stop (isIdent_of_isWord hw) hr

theorem dropWhile_isIdent_append {w r : Bytes} (hw : isWord w = true)
    (hr : r.head?.any isIdent = false) : (w ++ r).dropWhile isIdent = r :=
  dropWhile_append_stop (isIdent_of_isWord hw) hr

/-- **Of all identifiers, only the whole word leads a text that starts with a word.** -/
theorem leads_word_iff {w n r : Bytes} (hw : isWord w = true) (hn : isWord n = true)
    (hr : r.head?.any isIdent = false) : leads w (n ++ r) = true ↔ w = n := by
  constructor
  · intro h
    simp only [leads, hw, Bool.true_and, Bool.and_eq_true, List.isPrefixOf_iff_prefix] at h
    obtain ⟨⟨r', hr'⟩, he⟩ := h
    rw [← hr', List.drop_left] at he
    have h₁ := takeWhile_isIdent_append (r := r') hw (by simpa using he)
    rw [hr', takeWhile_isIdent_append hn hr] at h₁
    exact h₁.symm
  · rintro rfl
    exact leads_append fun _ => hr

/-- Of words that are identifiers, the one that leads a text is its first word. -/
theorem find?_leads_word {words : List Bytes} {n r : Bytes} (hw : ∀ w ∈ words, isWord w = true)
    (hn : isWord n = true) (hr : r.head?.any isIdent = false) (hmem : n ∈ words) :
    (words.find? fun w => leads (id w) (n ++ r)) = some n := by
  cases h : words.find? fun w => leads (id w) (n ++ r) with
  | none =>
    exact absurd ((leads_word_iff hn hn hr).mpr rfl) (List.find?_eq_none.mp h n hmem)
  | some w =>
    have hlead : leads w (n ++ r) = true := List.find?_some (p := fun w => leads (id w) (n ++ r)) h
    rw [(leads_word_iff (hw w (List.mem_of_find?_eq_some h)) hn hr).mp hlead]

namespace Parser

variable {α β : Type} {v : Vocabulary} {p : Parser α} {f : α → Parser β} {s t u : Bytes}

/-- The parser reads from `s` to `t` and yields a value in `Q`. -/
def Reads (v : Vocabulary) (p : Parser α) (s : Bytes) (Q : α → Prop) (t : Bytes) : Prop :=
  ∀ st : ParserState, st.At s v → ∃ a st', p.run st = .ok a st' ∧ Q a ∧ st'.At t v

namespace Reads

theorem pure {Q : α → Prop} {a : α} (h : Q a) : Reads v (pure a) s Q s :=
  fun st hst => ⟨a, st, rfl, h, hst⟩

theorem bind {Q : α → Prop} {R : β → Prop} (h : Reads v p s Q t)
    (k : ∀ a, Q a → Reads v (f a) t R u) : Reads v (p >>= f) s R u := by
  intro st hst
  obtain ⟨a, st₁, h₁, ha, hst₁⟩ := h st hst
  obtain ⟨b, st₂, h₂, hb, hst₂⟩ := k a ha st₁ hst₁
  refine ⟨b, st₂, ?_, hb, hst₂⟩
  rw [EStateM.run_bind, h₁]
  exact h₂

/-- A step whose value is known. -/
theorem bind_eq {R : β → Prop} {a : α} (h : Reads v p s (· = a) t) (k : Reads v (f a) t R u) :
    Reads v (p >>= f) s R u :=
  h.bind fun _ hb => hb ▸ k

/-- A test that holds: the first branch is taken. -/
theorem bind_true {R : β → Prop} {c : Parser Bool} {yes no : Parser β}
    (h : Reads v c s (· = true) t) (k : Reads v yes t R u) :
    Reads v (c >>= fun b => if b then yes else no) s R u :=
  h.bind_eq (by rwa [if_pos rfl])

/-- A test that fails: the second branch is taken. -/
theorem bind_false {R : β → Prop} {c : Parser Bool} {yes no : Parser β}
    (h : Reads v c s (· = false) t) (k : Reads v no t R u) :
    Reads v (c >>= fun b => if b then yes else no) s R u :=
  h.bind_eq (by rwa [if_neg Bool.false_ne_true])

theorem mono {Q R : α → Prop} (h : Reads v p s Q t) (hQ : ∀ a, Q a → R a) : Reads v p s R t := by
  intro st hst
  obtain ⟨a, st', h₁, ha, hst'⟩ := h st hst
  exact ⟨a, st', h₁, hQ a ha, hst'⟩

/-- A last step that only wraps the value. -/
theorem map {Q : α → Prop} {R : β → Prop} {g : α → β} (h : Reads v p s Q t)
    (hg : ∀ a, Q a → R (g a)) : Reads v (p >>= fun a => Pure.pure (g a)) s R t :=
  h.bind fun a ha => Reads.pure (hg a ha)

end Reads

/-! ### Operations that leave the cursor alone -/

theorem here_reads : Reads v here s (fun _ => True) s := fun st hst => ⟨_, st, rfl, trivial, hst⟩

theorem mark_reads : Reads v mark s (fun c => c.rest = s) s :=
  fun st hst => ⟨_, st, rfl, hst.rest, hst⟩

theorem get_reads : Reads v (get : Parser ParserState) s (fun st => st.vocabulary = v) s :=
  fun st hst => ⟨st, st, rfl, hst.vocabulary, hst⟩

theorem atEnd_reads : Reads v atEnd s (· = s.isEmpty) s :=
  fun st hst => ⟨_, st, rfl, by rw [← hst.rest]; rfl, hst⟩

theorem test_reads {inClass : UInt8 → Bool} :
    Reads v (test fun sc => sc.cursor.at? inClass) s (· = s.head?.any inClass) s :=
  fun st hst => ⟨_, st, rfl, by rw [← hst.rest]; rfl, hst⟩

theorem budget_reads : Reads v budget s (fun n => n.length = s.length + 1) s :=
  fun st hst => ⟨_, st, rfl, by rw [← hst.rest]; rfl, hst⟩

theorem peek_finds {w : Bytes} (hw : leads w s = true)
    (hc : Blank.comment? (s.drop w.length) = none) : Reads v (peek w) s (· = true) s := by
  intro st hst
  have hskip : (st.scanner.advanceBy w.length).skip true = st.scanner.advanceBy w.length := by
    refine Scanner.skip_of_none (Cursor.blank?_of_comment?_none ?_ true)
    rw [Scanner.advanceBy, Cursor.rest_advanceBy, hst.rest, hc]
  have hp : st.scanner.peek w = (true, st.scanner) := by
    rw [Scanner.peek_eq, hst.rest, if_pos hw, hskip]
    rfl
  refine ⟨true, st, ?_, rfl, hst⟩
  simp only [EStateM.run, peek, hp]

theorem peek_misses {w : Bytes} (hw : leads w s = false) : Reads v (peek w) s (· = false) s := by
  intro st hst
  have hp : st.scanner.peek w = (false, st.scanner) := by
    simp [Scanner.peek_eq, hst.rest, hw]
  refine ⟨false, st, ?_, rfl, hst⟩
  simp only [EStateM.run, peek, hp]

/-- The first item whose word leads the text, if no comment stands behind that word. -/
theorem firstPeeked_reads {w : α → Bytes} : ∀ {l : List α},
    (∀ a ∈ l.find? fun a => leads (w a) s, Blank.comment? (s.drop (w a).length) = none) →
      Reads v (firstPeeked w l) s (· = l.find? fun a => leads (w a) s) s
  | [], _ => Reads.pure rfl
  | a :: l, hc => by
    rw [firstPeeked]
    by_cases ha : leads (w a) s = true
    · rw [List.find?_cons_of_pos (by exact ha)] at hc ⊢
      refine (peek_finds ha (hc a rfl)).bind_true ?_
      exact Reads.pure rfl
    · rw [List.find?_cons_of_neg (by exact ha)] at hc ⊢
      refine (peek_misses (by simpa using ha)).bind_false ?_
      exact firstPeeked_reads hc

/-! ### Operations that move the cursor -/

/-- Behind a word that stands at the cursor, white space is skipped. -/
theorem skip_word {w r : Bytes} {st : ParserState} (hst : st.At s v) (hs : s = w ++ r)
    (hw : isWord w = true → r.head?.any isIdent = false) (hr : Settled (r.dropWhile isSpace)) :
    leads w st.scanner.cursor.rest = true ∧
      ParserState.At { st with scanner := (st.scanner.advanceBy w.length).skip false }
        (r.dropWhile isSpace) v := by
  have hd : s.drop w.length = r := by rw [hs, List.drop_left]
  have hnext := hst.skip (n := w.length) (by rw [hd]; exact hr)
  rw [hd] at hnext
  exact ⟨by rw [hst.rest, hs, leads_append hw], hnext⟩

theorem accept_reads {w r : Bytes} (hs : s = w ++ r)
    (hw : isWord w = true → r.head?.any isIdent = false) (hr : Settled (r.dropWhile isSpace)) :
    Reads v (accept w) s (· = true) (r.dropWhile isSpace) := by
  intro st hst
  obtain ⟨hleads, hnext⟩ := skip_word hst hs hw hr
  refine ⟨true, _, ?_, rfl, hnext⟩
  simp only [EStateM.run, accept, acceptKeeping, Scanner.lookahead_eq, hleads, if_true]

/-- Nothing is skipped where no blank can start. -/
theorem accept_solid {w r : Bytes} (hs : s = w ++ r)
    (hw : isWord w = true → r.head?.any isIdent = false) (hr : r.head?.any isSolid = true) :
    Reads v (accept w) s (· = true) r := by
  have h := accept_reads (v := v) hs hw
    (by rw [dropWhile_isSpace_of_isSolid hr]; exact settled_of_isSolid hr)
  rwa [dropWhile_isSpace_of_isSolid hr] at h

/-- A word with a single space behind it. -/
theorem accept_spaced {w r : Bytes} (hr : r.head?.any isSolid = true) :
    Reads v (accept w) (w ++ ch ' ' :: r) (· = true) r := by
  have hdrop : (ch ' ' :: r).dropWhile isSpace = r := dropWhile_isSpace_of_isSolid hr
  have h := accept_reads (v := v) (w := w) (r := ch ' ' :: r) rfl (fun _ => rfl)
    (by rw [hdrop]; exact settled_of_isSolid hr)
  rwa [hdrop] at h

theorem acceptKeeping_misses {w : Bytes} {keep : Bool} (hw : leads w s = false) :
    Reads v (acceptKeeping keep w) s (· = false) s := by
  intro st hst
  refine ⟨false, st, ?_, rfl, hst⟩
  simp [EStateM.run, acceptKeeping, Scanner.lookahead_eq, hst.rest, hw]

theorem accept_misses {w : Bytes} (hw : leads w s = false) : Reads v (accept w) s (· = false) s :=
  acceptKeeping_misses hw

theorem expect_reads {w r : Bytes} (hs : s = w ++ r)
    (hw : isWord w = true → r.head?.any isIdent = false) (hr : Settled (r.dropWhile isSpace)) :
    Reads v (expect w) s (fun _ => True) (r.dropWhile isSpace) := by
  intro st hst
  obtain ⟨hleads, hnext⟩ := skip_word hst hs hw hr
  refine ⟨(), _, ?_, trivial, hnext⟩
  simp only [EStateM.run, expect, scan, Scanner.consume_eq, hleads, if_true]

theorem firstAccepted_misses {word : α → Bytes} : ∀ {l : List α},
    (∀ a ∈ l, leads (word a) s = false) → Reads v (firstAccepted word l) s (· = none) s
  | [], _ => Reads.pure rfl
  | a :: l, h => by
    rw [firstAccepted]
    refine (accept_misses (h a (by simp))).bind_false ?_
    exact firstAccepted_misses fun b hb => h b (by simp [hb])

theorem firstAccepted_finds {word : α → Bytes} {a : α} {r : Bytes} (hs : s = word a ++ r)
    (hw : isWord (word a) = true → r.head?.any isIdent = false)
    (hr : Settled (r.dropWhile isSpace)) : ∀ {l : List α},
      (l.find? fun b => leads (word b) s) = some a →
      Reads v (firstAccepted word l) s (· = some a) (r.dropWhile isSpace)
  | [], h => by cases h
  | b :: l, h => by
    rw [firstAccepted]
    by_cases hb : leads (word b) s = true
    · rw [List.find?_cons_of_pos (by exact hb), Option.some.injEq] at h
      subst h
      refine (accept_reads hs hw hr).bind_true ?_
      exact Reads.pure rfl
    · rw [List.find?_cons_of_neg (by exact hb)] at h
      refine (accept_misses (by simpa using hb)).bind_false ?_
      exact firstAccepted_finds hs hw hr h

/-- A lexeme, and the white space behind it. -/
theorem scan_read_reads {reader : Bytes → Reading α} {a : α} {n : Nat} (hl : reader s = ⟨n, .ok a⟩)
    (hr : Settled ((s.drop n).dropWhile isSpace)) :
    Reads v (scan (Scanner.read reader (Scanner.skip false))) s (· = a)
      ((s.drop n).dropWhile isSpace) := by
  intro st hst
  refine ⟨a, _, ?_, rfl, hst.skip hr⟩
  simp only [EStateM.run, scan, Scanner.read, hst.rest, hl]

theorem identifier_reads {w r : Bytes} (hs : s = w ++ r) (hw : isWord w = true)
    (hi : r.head?.any isIdent = false) (hr : Settled (r.dropWhile isSpace)) :
    Reads v identifier s (· = w) (r.dropWhile isSpace) := by
  have hd : s.drop w.length = r := by rw [hs, List.drop_left]
  have hl : Lexeme.identifier s = ⟨w.length, .ok w⟩ := by
    have hh : s.head?.any isIdentStart = true := by
      cases w with
      | nil => simp [isWord] at hw
      | cons b w =>
        simp only [isWord, Bool.and_eq_true] at hw
        simp [hs, hw.1]
    have ht : s.takeWhile isIdent = w := by rw [hs, takeWhile_isIdent_append hw hi]
    rw [Lexeme.identifier, if_pos hh, ht]
  have := scan_read_reads (v := v) hl (by rw [hd]; exact hr)
  rwa [hd] at this

/-! ### Loops -/

theorem iterateWithin_cons (step : α → Parser (α ⊕ β)) (b : UInt8) (n : Bytes) (a : α) :
    iterateWithin step (b :: n) a = do
      match ← step a with
      | .inl a' => iterateWithin step n a'
      | .inr c => return c := rfl

/-- A loop starts with more rounds than there are bytes. -/
theorem iterate_reads {step : α → Parser (α ⊕ β)} {a : α} {Q : β → Prop}
    (h : ∀ n : Bytes, s.length < n.length → Reads v (iterateWithin step n a) s Q t) :
    Reads v (iterate step a) s Q t :=
  budget_reads.bind fun n hn => h n (by omega)

end Parser

end MiniC
