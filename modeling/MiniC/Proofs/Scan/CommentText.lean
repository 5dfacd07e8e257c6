import MiniC.Proofs.Scan.Extension

/-!
# Comments as texts

A comment is `//` with the rest of its line, or a block up to the first mark that closes it
(`Comment`). The scanner measures such texts and no others, apart from a block that is never closed
(`comment?_of_comment`, `comment_of_comment?`). Where it keeps white space it goes past all comments
that stand at the cursor, one behind the other, and past nothing else (`skip_comments`,
`exists_comments`).
-/

namespace MiniC.Scan

/-- The text `w`, with `k` behind it, is a comment. -/
inductive Comment (k : Bytes) : (w : Bytes) → Prop
  | line {body : Bytes} (hbody : (0x0a : UInt8) ∉ body) (hk : LineEnd k) :
    Comment k (ascii "//" ++ body)
  | block {body : Bytes} (hbody : ¬ ascii "*/" <:+: body) :
    Comment k (ascii "/*" ++ (body ++ ascii "*/"))

/-- Comments, one behind the other, with `k` behind the last one. -/
inductive Comments (k : Bytes) : (w : Bytes) → Prop
  | nil : Comments k []
  | cons {w v : Bytes} (first : Comment (v ++ k) w) (others : Comments k v) : Comments k (w ++ v)

namespace Blank

theorem comment?_of_comment {k w : Bytes} (h : Comment k w) :
    comment? (w ++ k) = some (.lineComment w.length) ∨
      comment? (w ++ k) = some (.blockComment w.length) := by
  cases h with
  | @line body hbody hk =>
    left
    have htake : (body ++ k).takeWhile (· != 0x0a) = body := by
      rw [hk.takeWhile_append (by decide), List.takeWhile_eq_self_iff]
      intro b hb
      rw [bne_iff_ne]
      rintro rfl
      exact hbody hb
    rw [List.append_assoc, comment?_line, htake, List.length_append]
    rfl
  | @block body hbody =>
    right
    rw [List.append_assoc, List.append_assoc, comment?_block hbody, List.length_append,
      List.length_append]
    exact congrArg (some ∘ blockComment) (Nat.add_assoc 2 _ 2)

theorem comment_of_comment? {s : Bytes} {b : Blank} (h : comment? s = some b)
    (hb : b ≠ .openComment) :
    ∃ w k, s = w ++ k ∧ Comment k w ∧
      (b = .lineComment w.length ∨ b = .blockComment w.length) := by
  rcases comment?_cases h with ⟨rest, rfl, rfl⟩ | ⟨body, k, rfl, hbody, rfl⟩ | ⟨-, -, -, rfl⟩
  · refine ⟨ascii "//" ++ rest.takeWhile (· != 0x0a), rest.dropWhile (· != 0x0a), ?_,
      .line ?_ (lineEnd_dropWhile rest), .inl ?_⟩
    · rw [List.append_assoc, List.takeWhile_append_dropWhile]
    · intro hn
      exact absurd (List.mem_takeWhile_imp hn) (by decide)
    · rw [List.length_append]
      rfl
  · refine ⟨ascii "/*" ++ (body ++ ascii "*/"), k, ?_, .block hbody, .inr ?_⟩
    · rw [List.append_assoc, List.append_assoc]
    · rw [List.length_append, List.length_append]
      exact congrArg blockComment (Nat.add_assoc 2 _ 2)
  · exact absurd rfl hb

end Blank

/-- Where no comment stands there are none. -/
theorem Comments.eq_nil {k w : Bytes} (h : Comments k w) (hk : Blank.comment? (w ++ k) = none) :
    w = [] := by
  cases h with
  | nil => rfl
  | cons first others =>
    rw [List.append_assoc] at hk
    rcases Blank.comment?_of_comment first with hc | hc <;> rw [hc] at hk <;> cases hk

/-! ### Skipping comments -/

namespace Scanner

theorem rest_advanceBy_length {s : Scanner} {w k : Bytes} (h : s.cursor.rest = w ++ k) :
    (s.advanceBy w.length).cursor.rest = k := Cursor.rest_advanceBy_length h

theorem advanceBy_advanceBy (m n : Nat) (s : Scanner) :
    (s.advanceBy m).advanceBy n = s.advanceBy (m + n) := by
  induction m generalizing s with
  | zero => rw [Nat.zero_add]; rfl
  | succ m ih =>
    rw [Nat.succ_add]
    exact ih { s with cursor := s.cursor.advance }

theorem skip_comment {s : Scanner} {w k : Bytes} (keep : Bool) (h : Comment k w)
    (hs : s.cursor.rest = w ++ k) : s.skip keep = (s.advanceBy w.length).skip keep := by
  have hblank : ∀ b, Blank.comment? (w ++ k) = some b → s.cursor.blank? keep = some b :=
    fun b hb => Cursor.blank?_of_comment? (by rw [hs, hb]) keep
  rcases Blank.comment?_of_comment h with hc | hc <;> rw [skip_of_some (hblank _ hc)] <;> rfl

/-- Comments are skipped up to the first byte behind them. -/
theorem skip_comments {s : Scanner} {w k : Bytes} (h : Comments k w) (hs : s.cursor.rest = w ++ k)
    (hk : Blank.comment? k = none) : s.skip true = s.advanceBy w.length := by
  induction h generalizing s with
  | nil =>
    exact skip_of_none (Cursor.blank?_of_comment?_none (by rw [hs, List.nil_append, hk]) true)
  | cons first others ih =>
    rw [List.append_assoc] at hs
    rw [skip_comment true first hs, ih (rest_advanceBy_length hs), advanceBy_advanceBy,
      List.length_append]

/-- What is skipped are comments, unless the last one is open and runs to the end of the text. -/
theorem exists_comments {s : Scanner} (h : (s.skip true).cursor.rest ≠ []) :
    ∃ w k, s.cursor.rest = w ++ k ∧ Comments k w ∧ Blank.comment? k = none := by
  induction s using skip_induction true with
  | stop s hb =>
    exact ⟨[], s.cursor.rest, rfl, .nil, Cursor.comment?_of_blank?_none hb⟩
  | pass s b hb ih =>
    have hcomment : Blank.comment? s.cursor.rest = some b :=
      (Cursor.blank?_cases hb).resolve_right fun h => by cases h.1
    rw [skip_of_some hb] at h
    -- behind an open comment nothing would be left
    have hopen : b ≠ .openComment := by
      rintro rfl
      have hrest := s.rest_pass_openComment
      exact h (by rw [skip_of_none (Cursor.blank?_of_rest_nil true hrest), hrest])
    obtain ⟨w, k, hs, hw, hwidth⟩ := Blank.comment_of_comment? hcomment hopen
    have hpass : (s.pass b).cursor.rest = k := by
      rw [cursor_pass, Cursor.rest_pass, hs]
      rcases hwidth with rfl | rfl <;> exact List.drop_left
    obtain ⟨v, k', hk, hv, hk'⟩ := ih h
    rw [hpass] at hk
    subst hk
    exact ⟨w ++ v, k', by rw [hs, List.append_assoc], .cons hw hv, hk'⟩

end Scanner

end MiniC.Scan
