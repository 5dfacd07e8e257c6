import Mathlib.Data.List.Basic
import MiniC.Proofs.Text.ByteClass
import MiniC.Scan.Scanner

/-!
# Skipping blanks

What a blank can be is said once (`comment?_cases`, `spaces?_eq_some`, `marker?_eq_some` and
`blank?_cases`). `Scanner.skip` runs on a budget of one blank a byte. Every blank takes a byte at
least, so the budget never decides: skipping does nothing where no blank stands (`skip_of_none`),
and otherwise passes the blank and goes on (`skip_of_some`). A text is `Settled` if no blank stands
at its front, wherever its lines start; after white space in front of a settled text the scanner
stands at that text (`skip_spaces`).
-/

namespace MiniC.Scan

/-! ### Moving the cursor -/

namespace Cursor

theorem rest_advance (c : Cursor) : c.advance.rest = c.rest.tail := by
  unfold advance
  split <;> simp_all

@[simp] theorem rest_advanceBy : ∀ (n : Nat) (c : Cursor), (c.advanceBy n).rest = c.rest.drop n
  | 0, c => rfl
  | n + 1, c => by
    rw [advanceBy, rest_advanceBy n, rest_advance, List.drop_tail]

theorem rest_advanceBy_length {c : Cursor} {w k : Bytes} (h : c.rest = w ++ k) :
    (c.advanceBy w.length).rest = k := by
  rw [rest_advanceBy, h, List.drop_left]

end Cursor

namespace Blank

/-- The number of bytes of a blank that stands at the front of `s`. -/
def width (s : Bytes) : Blank → Nat
  | .spaces n => n
  | .lineComment n => n
  | .blockComment n => n
  | .openComment => s.length
  | .marker n _ => n

/-- The end of a block is behind the first mark that closes it. -/
theorem closingLength?_append_mark {body : Bytes} (h : ¬ ascii "*/" <:+: body) (k : Bytes)
    (taken : Nat) :
    closingLength? taken (body ++ (ascii "*/" ++ k)) = some (taken + body.length + 2) := by
  induction body generalizing taken with
  | nil => rfl
  | cons b body ih =>
    rw [List.infix_cons_iff, not_or] at h
    obtain ⟨c, rest, hc⟩ : ∃ c rest, body ++ (ascii "*/" ++ k) = c :: rest :=
      List.exists_cons_of_ne_nil (by simp [ascii])
    -- no mark starts in the body and ends in the one behind it
    have hmark : ¬ (b = ch '*' ∧ c = ch '/') := by
      rintro ⟨rfl, rfl⟩
      cases body with
      | nil => exact absurd (List.cons.inj hc).1 (by decide)
      | cons d body =>
        obtain rfl : d = ch '/' := (List.cons.inj hc).1
        exact h.1 ⟨body, rfl⟩
    rw [List.cons_append, hc, closingLength?, if_neg (by simpa using hmark), ← hc, ih h.2,
      List.length_cons]
    exact congrArg some (by omega)

/-- A block that is closed ends with the first mark that closes it. -/
theorem exists_mark_of_closingLength? {s : Bytes} {taken n : Nat}
    (h : closingLength? taken s = some n) :
    ∃ body k, s = body ++ (ascii "*/" ++ k) ∧ ¬ ascii "*/" <:+: body ∧
      n = taken + body.length + 2 := by
  induction s generalizing taken with
  | nil => cases h
  | cons b s ih =>
    cases s with
    | nil => cases h
    | cons c rest =>
      rw [closingLength?] at h
      split_ifs at h with hmark
      · rw [Bool.and_eq_true, decide_eq_true_eq, decide_eq_true_eq] at hmark
        obtain ⟨rfl, rfl⟩ := hmark
        exact ⟨[], rest, rfl, by decide, (Option.some.inj h).symm⟩
      · obtain ⟨body, k, hs, hbody, rfl⟩ := ih h
        refine ⟨b :: body, k, by rw [hs, List.cons_append], ?_, by rw [List.length_cons]; omega⟩
        rw [List.infix_cons_iff, not_or]
        refine ⟨?_, hbody⟩
        rintro ⟨r, hr⟩
        obtain ⟨hb, hr⟩ := List.cons.inj hr
        rw [← hr] at hs
        obtain ⟨hc, -⟩ := List.cons.inj hs
        rw [← hb, hc] at hmark
        exact hmark rfl

/-- **A comment** is `//` with the rest of its line, or a block, which is closed or open. -/
theorem comment?_cases {s : Bytes} {b : Blank} (h : comment? s = some b) :
    (∃ rest, s = ascii "//" ++ rest ∧
      b = .lineComment (2 + (rest.takeWhile (· != 0x0a)).length)) ∨
    (∃ body k, s = ascii "/*" ++ (body ++ (ascii "*/" ++ k)) ∧ ¬ ascii "*/" <:+: body ∧
      b = .blockComment (2 + body.length + 2)) ∨
    ∃ body, s = ascii "/*" ++ body ∧ closingLength? 2 body = none ∧ b = .openComment := by
  rcases s with _ | ⟨x, _ | ⟨y, rest⟩⟩
  · cases h
  · cases h
  rw [comment?] at h
  split_ifs at h with hline hblock
  · rw [Bool.and_eq_true, decide_eq_true_eq, decide_eq_true_eq] at hline
    obtain ⟨rfl, rfl⟩ := hline
    exact .inl ⟨rest, rfl, (Option.some.inj h).symm⟩
  · rw [Bool.and_eq_true, decide_eq_true_eq, decide_eq_true_eq] at hblock
    obtain ⟨rfl, rfl⟩ := hblock
    cases hclosing : closingLength? 2 rest with
    | none =>
      rw [hclosing] at h
      exact .inr (.inr ⟨rest, rfl, hclosing, (Option.some.inj h).symm⟩)
    | some n =>
      rw [hclosing] at h
      obtain ⟨body, k, rfl, hbody, rfl⟩ := exists_mark_of_closingLength? hclosing
      exact .inr (.inl ⟨body, k, rfl, hbody, (Option.some.inj h).symm⟩)

theorem comment?_line (rest : Bytes) : comment? (ascii "//" ++ rest) =
    some (.lineComment (2 + (rest.takeWhile (· != 0x0a)).length)) := rfl

theorem comment?_block {body : Bytes} (h : ¬ ascii "*/" <:+: body) (k : Bytes) :
    comment? (ascii "/*" ++ (body ++ (ascii "*/" ++ k))) =
      some (.blockComment (2 + body.length + 2)) := by
  have hclosing : comment? (ascii "/*" ++ (body ++ (ascii "*/" ++ k))) =
      some ((closingLength? 2 (body ++ (ascii "*/" ++ k))).elim .openComment .blockComment) := rfl
  rw [hclosing, closingLength?_append_mark h]
  rfl

/-- **White space** is taken as far as it goes. -/
theorem spaces?_eq_some {s : Bytes} {b : Blank} (h : spaces? s = some b) :
    (s.takeWhile isSpace).length ≠ 0 ∧ b = .spaces (s.takeWhile isSpace).length := by
  rw [spaces?] at h
  split_ifs at h with hzero
  exact ⟨hzero, (Option.some.inj h).symm⟩

/-- **A line marker** is `#` and the parts behind it, with the rest of its line. -/
theorem marker?_eq_some {s : Bytes} {b : Blank} (h : marker? s = some b) :
    ∃ rest line file, s = ch '#' :: rest ∧
      markerParts? (rest.takeWhile (· != 0x0a)) = some (line, file) ∧
      b = .marker ((rest.takeWhile (· != 0x0a)).length + 1) ⟨file, Int64.ofNat line - 1⟩ := by
  cases s with
  | nil => cases h
  | cons x rest =>
    rw [marker?] at h
    split_ifs at h with hx
    subst hx
    obtain ⟨⟨line, file⟩, hparts, rfl⟩ := Option.map_eq_some_iff.1 h
    exact ⟨rest, line, file, rfl, hparts, rfl⟩

/-- A comment takes a byte at least, and no more than there are. -/
theorem width_bounds_of_comment? {s : Bytes} {b : Blank} (h : comment? s = some b) :
    0 < b.width s ∧ b.width s ≤ s.length := by
  rcases comment?_cases h with ⟨rest, rfl, rfl⟩ | ⟨body, k, rfl, -, rfl⟩ | ⟨body, rfl, -, rfl⟩
  · have hle := (List.takeWhile_sublist (· != 0x0a) (l := rest)).length_le
    have htwo : (ascii "//").length = 2 := rfl
    rw [width, List.length_append, htwo]
    omega
  · have htwo : (ascii "/*").length = 2 ∧ (ascii "*/").length = 2 := ⟨rfl, rfl⟩
    rw [width, List.length_append, List.length_append, List.length_append, htwo.1, htwo.2]
    omega
  · have htwo : (ascii "/*").length = 2 := rfl
    rw [width, List.length_append, htwo]
    omega

theorem width_bounds_of_spaces? {s : Bytes} {b : Blank} (h : spaces? s = some b) :
    0 < b.width s ∧ b.width s ≤ s.length := by
  obtain ⟨hne, rfl⟩ := spaces?_eq_some h
  exact ⟨Nat.pos_of_ne_zero hne, (List.takeWhile_sublist isSpace).length_le⟩

theorem width_bounds_of_marker? {s : Bytes} {b : Blank} (h : marker? s = some b) :
    0 < b.width s ∧ b.width s ≤ s.length := by
  obtain ⟨rest, line, file, rfl, -, rfl⟩ := marker?_eq_some h
  exact ⟨Nat.succ_pos _, Nat.succ_le_succ (List.takeWhile_sublist (· != 0x0a)).length_le⟩

end Blank

namespace Cursor

@[simp] theorem rest_pass (c : Cursor) (b : Blank) :
    (c.pass b).rest = c.rest.drop (b.width c.rest) := by
  cases b <;> simp [pass, Blank.width]

theorem blank?_of_comment? {c : Cursor} {b : Blank} (h : Blank.comment? c.rest = some b)
    (keep : Bool) : c.blank? keep = some b := by
  rw [blank?, h]

theorem comment?_of_blank?_none {c : Cursor} {keep : Bool} (h : c.blank? keep = none) :
    Blank.comment? c.rest = none := by
  cases hcomment : Blank.comment? c.rest with
  | none => rfl
  | some b =>
    rw [blank?_of_comment? hcomment] at h
    cases h

theorem blank?_of_comment?_none {c : Cursor} (h : Blank.comment? c.rest = none) (keep : Bool) :
    c.blank? keep = if keep then none
      else (Blank.spaces? c.rest).or (if c.atLineStart then Blank.marker? c.rest else none) := by
  rw [blank?, h]
  cases Blank.spaces? c.rest <;> rfl

/-- **A blank** is a comment or, unless spaces are kept, white space or a line marker where a line
starts. -/
theorem blank?_cases {c : Cursor} {keep : Bool} {b : Blank} (h : c.blank? keep = some b) :
    Blank.comment? c.rest = some b ∨
      keep = false ∧ (Blank.spaces? c.rest = some b ∨
        c.atLineStart = true ∧ Blank.marker? c.rest = some b) := by
  cases hcomment : Blank.comment? c.rest with
  | some b' =>
    rw [blank?_of_comment? hcomment] at h
    exact .inl h
  | none =>
    rw [blank?_of_comment?_none hcomment] at h
    split_ifs at h with hkeep hline
    · rw [Option.or_eq_some_iff] at h
      exact .inr ⟨Bool.eq_false_iff.2 hkeep, h.imp_right fun hmarker => ⟨hline, hmarker.2⟩⟩
    · rw [Option.or_none] at h
      exact .inr ⟨Bool.eq_false_iff.2 hkeep, .inl h⟩

/-- **A blank takes a byte at least,** and lies within the text. -/
theorem width_bounds_of_blank? {c : Cursor} {keep : Bool} {b : Blank}
    (h : c.blank? keep = some b) : 0 < b.width c.rest ∧ b.width c.rest ≤ c.rest.length := by
  rcases blank?_cases h with hcomment | ⟨-, hspaces | ⟨-, hmarker⟩⟩
  · exact Blank.width_bounds_of_comment? hcomment
  · exact Blank.width_bounds_of_spaces? hspaces
  · exact Blank.width_bounds_of_marker? hmarker

theorem blank?_of_rest_nil {c : Cursor} (keep : Bool) (h : c.rest = []) : c.blank? keep = none := by
  simp [blank?, h, Blank.comment?, Blank.spaces?, Blank.marker?]

theorem length_rest_pass_lt {c : Cursor} {keep : Bool} {b : Blank} (h : c.blank? keep = some b) :
    (c.pass b).rest.length < c.rest.length := by
  obtain ⟨hpos, hle⟩ := width_bounds_of_blank? h
  rw [rest_pass, List.length_drop]
  omega

end Cursor

/-! ### The budget does not decide -/

namespace Scanner

theorem skipWithin_of_le (keep : Bool) : ∀ (m n : Bytes) (s : Scanner),
    s.cursor.rest.length ≤ m.length → s.cursor.rest.length ≤ n.length →
      skipWithin keep m s = skipWithin keep n s
  | [], n, s, hm, _ => by
    have h0 : s.cursor.rest = [] := List.eq_nil_of_length_eq_zero (by simpa using hm)
    cases n with
    | nil => rfl
    | cons b n => rw [skipWithin, skipWithin, Cursor.blank?_of_rest_nil keep h0]
  | a :: m, [], s, _, hn => by
    have h0 : s.cursor.rest = [] := List.eq_nil_of_length_eq_zero (by simpa using hn)
    rw [skipWithin, skipWithin, Cursor.blank?_of_rest_nil keep h0]
  | a :: m, b :: n, s, hm, hn => by
    rw [skipWithin, skipWithin]
    cases hb : s.cursor.blank? keep with
    | none => rfl
    | some x =>
      have hlt := Cursor.length_rest_pass_lt hb
      simp only [List.length_cons] at hm hn
      exact skipWithin_of_le keep m n (s.pass x) (by simp only [pass]; omega)
        (by simp only [pass]; omega)

theorem skip_of_none {keep : Bool} {s : Scanner} (h : s.cursor.blank? keep = none) :
    s.skip keep = s := by
  unfold skip
  cases hr : s.cursor.rest with
  | nil => rfl
  | cons b rest => rw [skipWithin, h]

/-- **One blank at a time.** -/
theorem skip_of_some {keep : Bool} {s : Scanner} {b : Blank} (h : s.cursor.blank? keep = some b) :
    s.skip keep = (s.pass b).skip keep := by
  have hlt := Cursor.length_rest_pass_lt h
  unfold skip
  cases hr : s.cursor.rest with
  | nil => rw [hr] at hlt; simp at hlt
  | cons x rest =>
    rw [skipWithin, h]
    rw [hr, List.length_cons] at hlt
    exact skipWithin_of_le keep _ _ _ (by simp only [pass]; omega) (Nat.le_refl _)

@[simp] theorem cursor_pass (s : Scanner) (b : Blank) : (s.pass b).cursor = s.cursor.pass b := rfl

/-- Nothing is left behind an open comment. -/
theorem rest_pass_openComment (s : Scanner) : (s.pass .openComment).cursor.rest = [] := by
  rw [cursor_pass, Cursor.rest_pass]
  exact List.drop_length

end Scanner

/-! ### Settled texts -/

/-- No blank stands at the front of the text, even if a line starts there. -/
structure Settled (s : Bytes) : Prop where
  comment : Blank.comment? s = none
  space : s.head?.any isSpace = false
  marker : s.head?.any (· == ch '#') = false

theorem settled_nil : Settled [] := ⟨rfl, rfl, rfl⟩

theorem takeWhile_isSpace_of_head {s : Bytes} (h : s.head?.any isSpace = false) :
    s.takeWhile isSpace = [] := by
  cases s with
  | nil => rfl
  | cons b s => simp_all

theorem blank?_of_settled {c : Cursor} (keep : Bool) (h : Settled c.rest) :
    c.blank? keep = none := by
  have hm : Blank.marker? c.rest = none := by
    unfold Blank.marker?
    split
    · next b rest hr =>
      have hb := h.marker
      rw [hr] at hb
      rw [if_neg (by simpa using hb)]
    · rfl
  have hs : Blank.spaces? c.rest = none := by
    simp [Blank.spaces?, takeWhile_isSpace_of_head h.space]
  simp [Cursor.blank?_of_comment?_none h.comment, hs, hm]

theorem comment?_of_ne {b : UInt8} (s : Bytes) (hb : b ≠ ch '/') :
    Blank.comment? (b :: s) = none := by
  cases s with
  | nil => rfl
  | cons c s => simp [Blank.comment?, hb]

theorem comment?_of_isSpace {b : UInt8} (s : Bytes) (h : isSpace b = true) :
    Blank.comment? (b :: s) = none :=
  comment?_of_ne s (by rintro rfl; revert h; decide)

/-- Where white space stands, it is the blank. -/
theorem Cursor.blank?_of_isSpace {c : Cursor} {b : UInt8} {rest : Bytes} (hr : c.rest = b :: rest)
    (hb : isSpace b = true) :
    c.blank? false = some (.spaces (c.rest.takeWhile isSpace).length) := by
  have hcomment : Blank.comment? c.rest = none := by rw [hr]; exact comment?_of_isSpace rest hb
  rw [blank?_of_comment?_none hcomment, hr]
  simp [Blank.spaces?, hb]

theorem settled_of_isSolid {s : Bytes} (h : s.head?.any isSolid = true) : Settled s := by
  cases s with
  | nil => exact settled_nil
  | cons b s =>
    simp only [List.head?_cons, Option.any_some, isSolid, Bool.and_eq_true, Bool.not_eq_true',
      bne_iff_ne] at h
    exact ⟨comment?_of_ne s h.1.2, h.1.1, by simpa using h.2⟩

/-- In front of a solid byte a scanner has nothing to skip. -/
theorem Scanner.ofText_of_isSolid {s : Bytes} (h : s.head?.any isSolid = true) (file : Bytes) :
    Scanner.ofText s file = ⟨Cursor.ofText s file, none⟩ :=
  skip_of_none (blank?_of_settled false (settled_of_isSolid h))

theorem head_append_of_isSolid {s : Bytes} (hs : s.head?.any isSolid = true) (r : Bytes) :
    (s ++ r).head?.any isSolid = true := by
  cases s with
  | nil => cases hs
  | cons b s => exact hs

theorem dropWhile_isSpace_of_isSolid {s : Bytes} (h : s.head?.any isSolid = true) :
    s.dropWhile isSpace = s := by
  cases s with
  | nil => rfl
  | cons b s =>
    simp only [List.head?_cons, Option.any_some, isSolid, Bool.and_eq_true, Bool.not_eq_true'] at h
    simp [h.1.1]

theorem drop_length_takeWhile (p : UInt8 → Bool) (s : Bytes) :
    s.drop (s.takeWhile p).length = s.dropWhile p := by
  conv_lhs => rhs; rw [← List.takeWhile_append_dropWhile (p := p) (l := s)]
  exact List.drop_left

/-- White space in front of a settled text is skipped, and nothing else. -/
theorem skip_spaces {s : Scanner} (h : Settled (s.cursor.rest.dropWhile isSpace)) :
    (s.skip false).cursor.rest = s.cursor.rest.dropWhile isSpace ∧
      (s.skip false).fault = s.fault := by
  cases hr : s.cursor.rest with
  | nil => rw [Scanner.skip_of_none (Cursor.blank?_of_rest_nil _ hr), hr]; exact ⟨rfl, rfl⟩
  | cons b rest =>
    rw [hr] at h
    by_cases hb : isSpace b = true
    · have hblank := Cursor.blank?_of_isSpace hr hb
      have hp : (s.cursor.pass (.spaces (s.cursor.rest.takeWhile isSpace).length)).rest =
          (b :: rest).dropWhile isSpace := by
        rw [Cursor.rest_pass, hr]
        exact drop_length_takeWhile isSpace (b :: rest)
      rw [Scanner.skip_of_some hblank,
        Scanner.skip_of_none (blank?_of_settled _ (by rw [Scanner.cursor_pass, hp]; exact h)),
        Scanner.cursor_pass, hp]
      exact ⟨rfl, rfl⟩
    · have hd : (b :: rest).dropWhile isSpace = b :: rest := by simp [hb]
      rw [hd] at h ⊢
      rw [Scanner.skip_of_none (blank?_of_settled _ (by rw [hr]; exact h)), hr]
      exact ⟨rfl, rfl⟩

end MiniC.Scan
