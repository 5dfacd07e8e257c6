import MiniC.Proofs.Scan.Skip

/-!
# Looking for a word

The scanner looks for a word by moving over its bytes one after another, and moves back where one of
them is missing or the text goes on with a longer identifier. `leads` says when the word is found, as
a property of the text left alone; `lookahead_eq` and `peek_eq` say what the scanner does in both
cases. A miss leaves no trace at all, and a word that is only peeked at leaves the cursor where it
was.
-/

namespace MiniC

/-- The text goes on with `word`; if `word` is an identifier, as a whole word. -/
def leads (word s : Bytes) : Bool :=
  word.isPrefixOf s && !(isWord word && (s.drop word.length).head?.any isIdent)

theorem leads_iff {word s : Bytes} : leads word s = true ↔
    word <+: s ∧ (isWord word = true → ∀ b, s[word.length]? = some b → isIdent b = false) := by
  have hnext : (s.drop word.length).head? = s[word.length]? := List.head?_drop
  rw [leads, Bool.and_eq_true, List.isPrefixOf_iff_prefix, hnext]
  cases isWord word with
  | false => simp
  | true => cases s[word.length]? <;> simp

namespace Scan

namespace Cursor

theorem follow_cons_of_head {b : UInt8} {word rest : Bytes} {c : Cursor} (h : c.rest = b :: rest) :
    c.follow (b :: word) = c.advance.follow word := by
  rw [follow, if_pos (by simp [at?, h])]

/-- **All bytes of the word are found if the text starts with it.** -/
theorem fst_follow (word : Bytes) (c : Cursor) : (c.follow word).1 = word.isPrefixOf c.rest := by
  induction word generalizing c with
  | nil => rfl
  | cons b word ih =>
    cases hr : c.rest with
    | nil =>
      rw [follow, if_neg (by simp [at?, hr])]
      rfl
    | cons d rest =>
      have hadvance : c.advance.rest = rest := by rw [rest_advance, hr, List.tail_cons]
      by_cases hbd : d = b
      · subst hbd
        rw [follow_cons_of_head hr, ih, hadvance, List.isPrefixOf_cons_cons, beq_self_eq_true,
          Bool.true_and]
      · rw [follow, if_neg (by simp [at?, hr, hbd]), List.isPrefixOf_cons_cons,
          beq_eq_false_iff_ne.2 (Ne.symm hbd), Bool.false_and]

/-- The match ends right behind the word, on the line that the bytes of the word lead to. -/
theorem snd_follow {word : Bytes} {c : Cursor} (h : word <+: c.rest) :
    (c.follow word).2 = c.advanceBy word.length := by
  induction word generalizing c with
  | nil => rfl
  | cons b word ih =>
    obtain ⟨r, hr⟩ := h
    have hadvance : c.advance.rest = word ++ r := by rw [rest_advance, ← hr]; rfl
    rw [follow_cons_of_head hr.symm, ih ⟨r, hadvance.symm⟩]
    rfl

end Cursor

namespace Scanner

/-- Where no word is found the scanner stays as it is. -/
theorem lookahead_eq (word : Bytes) (keep : Bool) (s : Scanner) :
    s.lookahead word keep =
      if leads word s.cursor.rest then (true, (s.advanceBy word.length).skip keep)
      else (false, s) := by
  have hfound := s.cursor.fst_follow word
  unfold lookahead
  dsimp only
  cases hp : word.isPrefixOf s.cursor.rest with
  | false =>
    have hleads : leads word s.cursor.rest = false := by rw [leads, hp, Bool.false_and]
    rw [hfound, hp, hleads]
    rfl
  | true =>
    have hmoved := Cursor.snd_follow (List.isPrefixOf_iff_prefix.1 hp)
    have hleads : leads word s.cursor.rest =
        !(isWord word && (s.cursor.advanceBy word.length).at? isIdent) := by
      rw [leads, hp, Bool.true_and, Cursor.at?, Cursor.rest_advanceBy]
    rw [hfound, hp, hmoved, hleads]
    -- the second exit: the match runs into a longer identifier
    cases isWord word && (s.cursor.advanceBy word.length).at? isIdent <;> rfl

theorem peek_eq (word : Bytes) (s : Scanner) :
    s.peek word =
      if leads word s.cursor.rest then
        (true, ((s.advanceBy word.length).skip true).restore s.cursor)
      else (false, s) := by
  rw [peek, lookahead_eq]
  split_ifs <;> rfl

theorem consume_eq (word : Bytes) (s : Scanner) :
    s.consume word =
      if leads word s.cursor.rest then (.ok (), (s.advanceBy word.length).skip false)
      else (.error (s.unexpected word), s) := by
  rw [consume, lookahead_eq]
  split_ifs <;> rfl

end Scanner

end Scan

end MiniC
