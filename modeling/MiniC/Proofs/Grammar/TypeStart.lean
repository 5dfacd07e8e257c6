import MiniC.Grammar.Declarator
import MiniC.Proofs.Grammar.Run
import MiniC.Proofs.Scan.Placing
import MiniC.Proofs.Syntax.Vocabulary

/-!
# Where a type starts

Whether a declarator starts at the cursor is found out by peeking at the words of the vocabulary one
after another. An identifier leads a text if and only if it is the longest one the text starts with
(`leads_iff_longestIdentifier`), so at most one word can be found, and their order does not matter.
`lookahead_exact` puts together what the parser relies on: the match of a word, the way back after a
miss, and the question for a type.
-/

namespace MiniC

open Scan

/-- `w` is the longest identifier that the text starts with. -/
structure LongestIdentifier (text w : Bytes) : Prop where
  word : isWord w = true
  front : w <+: text
  longest : ∀ v, isWord v = true → v <+: text → v.length ≤ w.length

theorem isWord_concat {w : Bytes} {b : UInt8} (hw : isWord w = true) (hb : isIdent b = true) :
    isWord (w ++ [b]) = true := by
  cases w with
  | nil => cases hw
  | cons a w =>
    rw [isWord, Bool.and_eq_true] at hw
    rw [List.cons_append, isWord, hw.1, List.all_append, hw.2, List.all_cons, hb]
    rfl

/-- **An identifier leads a text if it is the longest one the text starts with.** -/
theorem leads_iff_longestIdentifier {w s : Bytes} (hw : isWord w = true) :
    leads w s = true ↔ LongestIdentifier s w := by
  rw [leads_iff]
  constructor
  · rintro ⟨hfront, hnext⟩
    refine ⟨hw, hfront, fun v hv hvs => ?_⟩
    by_contra hlt
    -- a longer identifier goes on with the byte behind `w`
    have hbound : w.length < v.length := by omega
    have hbyte : s[w.length]? = some v[w.length] := by
      rw [List.getElem?_eq_getElem (hbound.trans_le hvs.length_le), hvs.getElem hbound]
    have hident := isIdent_of_isWord hv _ (List.getElem_mem hbound)
    rw [hnext hw _ hbyte] at hident
    cases hident
  · intro h
    refine ⟨h.front, fun _ b hb => ?_⟩
    by_contra hident
    obtain ⟨r, rfl⟩ := h.front
    rw [List.getElem?_append_right (Nat.le_refl _), Nat.sub_self] at hb
    obtain ⟨r, rfl⟩ : ∃ r', r = b :: r' := by
      cases r with
      | nil => cases hb
      | cons c r => exact ⟨r, by rw [Option.some.inj hb]⟩
    have hlonger := h.longest (w ++ [b]) (isWord_concat hw (by simpa using hident))
      ⟨r, by rw [List.append_assoc, List.singleton_append]⟩
    rw [List.length_append, List.length_singleton] at hlonger
    omega

namespace Parser

/-- **Peeking finds the first word that leads the text, and the cursor stays.** -/
theorem firstPeeked_run {α : Type} (word : α → Bytes) (l : List α) (st : ParserState) :
    ∃ st', (firstPeeked word l).run st =
        .ok (l.find? fun a => leads (word a) st.scanner.cursor.rest) st' ∧
      st'.scanner.cursor = st.scanner.cursor ∧ st'.vocabulary = st.vocabulary := by
  induction l with
  | nil => exact ⟨st, rfl, rfl, rfl⟩
  | cons a l ih =>
    have hpeek := peek_run (word a) st
    rw [firstPeeked]
    cases ha : leads (word a) st.scanner.cursor.rest with
    | true =>
      rw [if_pos ha] at hpeek
      rw [run_bind_of_ok hpeek, List.find?_cons, ha]
      exact ⟨_, rfl, rfl, rfl⟩
    | false =>
      rw [if_neg (by rw [ha]; exact Bool.false_ne_true)] at hpeek
      rw [run_bind_of_ok hpeek, List.find?_cons, ha]
      exact ih

end Parser

namespace Grammar

open MiniC.Parser

/-- The question for a type is answered by the words that lead the text. -/
theorem typeStarts_run (st : ParserState) :
    ∃ b st', typeStarts.run st = .ok b st' ∧
      (b = true ↔ ∃ w ∈ st.vocabulary.modifiers ++ st.vocabulary.types,
        leads w st.scanner.cursor.rest = true) ∧
      st'.scanner.cursor = st.scanner.cursor ∧ st'.vocabulary = st.vocabulary := by
  set words := st.vocabulary.modifiers ++ st.vocabulary.types
  obtain ⟨st', hrun, hcursor, hvocabulary⟩ := firstPeeked_run id words st
  refine ⟨(words.find? fun w => leads w st.scanner.cursor.rest).isSome, st', ?_, ?_, hcursor,
    hvocabulary⟩
  · have hget : (get : Parser ParserState).run st = .ok st st := rfl
    rw [typeStarts, run_bind_of_ok hget]
    exact run_bind_of_ok hrun
  · exact List.find?_isSome

/-- **A word is found exactly, and a miss leaves no trace.** Wherever the scanner stands, looking for
a word succeeds if and only if the text goes on with it and, if it is an identifier, not with a
longer one. After a miss the whole scanner is as it was: cursor, line and fault. After a match it is
where skipping blanks, or only comments, leads from the byte behind the word. Peeking gives the same
answer and leaves the cursor alone. So if the vocabulary holds identifiers only, in whatever order, a
type starts at the cursor if and only if the longest identifier there is a word of the
vocabulary. -/
theorem lookahead_exact (s : Scanner) :
    (∀ (word : Bytes) (keep : Bool),
      let answer := s.lookahead word keep
      let behind := s.advanceBy word.length
      (answer.1 = true ↔ word <+: s.cursor.rest ∧
        (isWord word = true →
          ∀ b, s.cursor.rest[word.length]? = some b → isIdent b = false)) ∧
      (answer.1 = false → answer.2 = s) ∧
      (answer.1 = true → answer.2 = behind.skip keep ∧
        behind.cursor.index = s.cursor.index + word.length ∧
        behind.cursor.text = s.cursor.text ∧ behind.fault = s.fault) ∧
      (s.peek word).1 = answer.1 ∧ (s.peek word).2.cursor = s.cursor) ∧
    ∀ v : Vocabulary, IdentifiersOnly v →
      ∃ b st, typeStarts.run ⟨s, v⟩ = .ok b st ∧
        (b = true ↔ ∃ w, LongestIdentifier s.cursor.rest w ∧ (w ∈ v.types ∨ w ∈ v.modifiers)) ∧
        st.scanner.cursor = s.cursor ∧ st.vocabulary = v := by
  refine ⟨fun word keep => ?_, fun v hv => ?_⟩
  · dsimp only
    rw [Scanner.lookahead_eq, Scanner.peek_eq, ← leads_iff]
    cases hleads : leads word s.cursor.rest with
    | false => simp
    | true =>
      obtain ⟨r, hr⟩ := (leads_iff.1 hleads).1
      have hindex : (s.advanceBy word.length).cursor.index = s.cursor.index + word.length :=
        (Cursor.between_advanceBy hr.symm).index
      exact ⟨by simp, by simp, fun _ => ⟨rfl, hindex, Cursor.text_advanceBy _ _, rfl⟩, rfl, rfl⟩
  · obtain ⟨b, st, hrun, hb, hcursor, hvocabulary⟩ := typeStarts_run ⟨s, v⟩
    refine ⟨b, st, hrun, hb.trans ?_, hcursor, hvocabulary⟩
    constructor
    · rintro ⟨w, hw, hleads⟩
      refine ⟨w, (leads_iff_longestIdentifier (hv w hw)).1 hleads, ?_⟩
      exact (List.mem_append.1 hw).symm
    · rintro ⟨w, hlongest, hw⟩
      have hmem : w ∈ v.modifiers ++ v.types := List.mem_append.2 hw.symm
      exact ⟨w, hmem, (leads_iff_longestIdentifier (hv w hmem)).2 hlongest⟩

/-- At `unsigned x` a type starts, and the cursor has not moved. -/
theorem lookahead_exact_unsigned :
    let c := Cursor.ofText (ascii "unsigned x") (ascii "a.c")
    ∃ st, typeStarts.run ⟨⟨c, none⟩, .initial⟩ = .ok true st ∧ st.scanner.cursor = c := by
  intro c
  obtain ⟨b, st, hrun, hb, hcursor, -⟩ :=
    (lookahead_exact ⟨c, none⟩).2 .initial identifiersOnly_initial
  have hlongest : LongestIdentifier c.rest (ascii "unsigned") :=
    (leads_iff_longestIdentifier (by decide)).1 (by decide)
  rw [hb.2 ⟨_, hlongest, .inr (by decide)⟩] at hrun
  exact ⟨st, hrun, hcursor⟩

end Grammar

end MiniC
