import Mathlib.Data.List.TakeWhile
import MiniC.Proofs.Scan.Skip

/-!
# Texts that go on in a new line

A text is compared with a longer one, which goes on with `tail` behind it: with nothing or a new
line (`LineEnd`). Whatever the scanner finds in the first text it finds in the longer one, as long
as it does not come to the end of the first.

* `skip_true_extends`: comments are skipped in step.
* `Boundary.skip_carries`: blanks are skipped in step up to the end of the first text. There the
  scanner of the longer text goes on to the first word of `tail`, which a `Boundary` knows.
-/

namespace MiniC.Scan

/-- The text is empty or starts with a newline. -/
def LineEnd (tail : Bytes) : Prop := tail = [] ∨ ∃ r, tail = 0x0a :: r

namespace LineEnd

variable {tail : Bytes} {p : UInt8 → Bool}

theorem head_any (h : LineEnd tail) (hp : p 0x0a = false) : tail.head?.any p = false := by
  rcases h with rfl | ⟨r, rfl⟩
  · rfl
  · exact hp

theorem takeWhile_append (h : LineEnd tail) (hp : p 0x0a = false) (s : Bytes) :
    (s ++ tail).takeWhile p = s.takeWhile p :=
  takeWhile_append_of_head (h.head_any hp) s

theorem comment? (h : LineEnd tail) : Blank.comment? tail = none := by
  rcases h with rfl | ⟨r, rfl⟩
  · rfl
  · exact comment?_of_ne r (by decide)

end LineEnd

/-- Behind the rest of a line the line ends. -/
theorem lineEnd_dropWhile (s : Bytes) : LineEnd (s.dropWhile (· != 0x0a)) := by
  have hhead := head_dropWhile (p := (· != 0x0a)) s
  cases hs : s.dropWhile (· != 0x0a) with
  | nil => exact .inl rfl
  | cons b r =>
    rw [hs, List.head?_cons, Option.any_some, bne_eq_false_iff_eq] at hhead
    exact .inr ⟨r, by rw [hhead]⟩

/-! ### Blanks -/

namespace Blank

variable {s tail : Bytes} {b : Blank}

theorem comment?_append_none (ht : LineEnd tail) (h : comment? s = none) :
    comment? (s ++ tail) = none := by
  match s with
  | [] => exact ht.comment?
  | [x] =>
    rcases ht with rfl | ⟨r, rfl⟩
    · rfl
    · simp [comment?, show ¬ (0x0a : UInt8) = ch '/' by decide,
        show ¬ (0x0a : UInt8) = ch '*' by decide]
  | x :: y :: rest =>
    rw [comment?] at h
    split_ifs at h with h₁ h₂
    rw [List.cons_append, List.cons_append, comment?, if_neg h₁, if_neg h₂]

theorem comment?_append_some (ht : LineEnd tail) (h : comment? s = some b)
    (hb : b ≠ .openComment) : comment? (s ++ tail) = some b := by
  rcases comment?_cases h with ⟨rest, rfl, rfl⟩ | ⟨body, k, rfl, hbody, rfl⟩ | ⟨-, -, -, rfl⟩
  · rw [List.append_assoc, comment?_line, ht.takeWhile_append (by decide)]
  · rw [List.append_assoc, List.append_assoc, List.append_assoc, comment?_block hbody]
  · exact absurd rfl hb

theorem marker?_append (ht : LineEnd tail) : marker? (s ++ tail) = marker? s := by
  cases s with
  | nil => rcases ht with rfl | ⟨r, rfl⟩ <;> rfl
  | cons x rest =>
    have hl := ht.takeWhile_append (p := (· != 0x0a)) (by decide) (x :: rest)
    rw [List.cons_append] at hl
    simp only [marker?, List.cons_append, hl]

end Blank

/-! ### Cursors in step -/

namespace Cursor

variable {tail : Bytes} {c d : Cursor} {b : Blank} {keep : Bool} {n : Nat}

theorem before_advanceBy : ∀ {n : Nat} {c : Cursor}, n ≤ c.rest.length →
    (c.advanceBy n).before = (c.rest.take n).reverse ++ c.before
  | 0, c, _ => rfl
  | n + 1, c, h => by
    have hr : c.advance.rest = c.rest.tail := c.rest_advance
    cases hc : c.rest with
    | nil => simp [hc] at h
    | cons x rest =>
      have hb : c.advance.before = x :: c.before := by simp [advance, hc]
      rw [hc, List.tail_cons] at hr
      rw [hc, List.length_cons] at h
      rw [advanceBy, before_advanceBy (by rw [hr]; omega), hr, hb]
      simp

/-- The text `w` stands between the two cursors. -/
structure Between (c : Cursor) (w : Bytes) (d : Cursor) : Prop where
  rest : c.rest = w ++ d.rest
  before : d.before = w.reverse ++ c.before

theorem Between.trans {e : Cursor} {w v : Bytes} (h : c.Between w d) (h' : d.Between v e) :
    c.Between (w ++ v) e where
  rest := by rw [h.rest, h'.rest, List.append_assoc]
  before := by rw [h'.before, h.before, List.reverse_append, List.append_assoc]

theorem Between.index {w : Bytes} (h : c.Between w d) : d.index = c.index + w.length := by
  rw [Cursor.index, h.before, List.length_append, List.length_reverse, Cursor.index, Nat.add_comm]

theorem between_advanceBy {w k : Bytes} (h : c.rest = w ++ k) :
    c.Between w (c.advanceBy w.length) where
  rest := by rw [rest_advanceBy_length h, h]
  before := by
    have hlength : w.length ≤ c.rest.length := by rw [h, List.length_append]; omega
    rw [before_advanceBy hlength, h, List.take_left]

/-- Behind bytes that were passed, a line starts where the last of them is a newline. -/
theorem atLineStart_advanceBy (h₀ : 0 < n) (hn : n ≤ c.rest.length) :
    (c.advanceBy n).atLineStart =
      ((c.rest.take n).reverse.head?.any (· == 0x0a) && !(c.rest.drop n).isEmpty) := by
  cases hl : (c.rest.take n).reverse with
  | nil =>
    have := congrArg List.length hl
    simp only [List.length_reverse, List.length_take, List.length_nil] at this
    omega
  | cons x l =>
    rw [atLineStart, before_advanceBy hn, hl]
    simp [atEnd]

/-- The second cursor stands where the first one does, in a text that goes on with `tail`. -/
structure Extends (tail : Bytes) (c d : Cursor) : Prop where
  rest : d.rest = c.rest ++ tail
  lineStart : c.rest ≠ [] → c.atLineStart = d.atLineStart

theorem extends_advanceBy (h : d.rest = c.rest ++ tail) (h₀ : 0 < n) (hn : n ≤ c.rest.length) :
    Extends tail (c.advanceBy n) (d.advanceBy n) where
  rest := by rw [rest_advanceBy, rest_advanceBy, h, List.drop_append_of_le_length hn]
  lineStart := by
    intro hne
    rw [rest_advanceBy] at hne
    have hd : n ≤ d.rest.length := by rw [h, List.length_append]; omega
    rw [atLineStart_advanceBy h₀ hn, atLineStart_advanceBy h₀ hd, h,
      List.take_append_of_le_length hn, List.drop_append_of_le_length hn]
    simp [List.isEmpty_eq_false_iff.mpr hne, hne]

theorem extends_pass (h : d.rest = c.rest ++ tail) (hb : c.blank? keep = some b)
    (ho : b ≠ .openComment) : Extends tail (c.pass b) (d.pass b) := by
  obtain ⟨h₀, hn⟩ := width_bounds_of_blank? hb
  have hadv := extends_advanceBy h h₀ hn
  cases b with
  | spaces n => exact hadv
  | lineComment n => exact hadv
  | blockComment n => exact hadv
  | openComment => exact absurd rfl ho
  | marker n p => exact ⟨hadv.rest, hadv.lineStart⟩

/-- What stands at the cursor is the same blank in both texts, except for an open comment and for
white space up to the end of the first. -/
theorem Extends.blank?_eq (ht : LineEnd tail) (h : Extends tail c d) (hne : c.rest ≠ [])
    (ho : c.blank? keep ≠ some .openComment) :
    d.blank? keep = c.blank? keep ∨ (keep = false ∧ ∀ x ∈ c.rest, isSpace x = true) := by
  cases hc : Blank.comment? c.rest with
  | some b =>
    rw [blank?_of_comment? hc] at ho ⊢
    refine .inl (blank?_of_comment? ?_ keep)
    rw [h.rest]
    exact Blank.comment?_append_some ht hc fun hopen => ho (congrArg some hopen)
  | none =>
    have hd : Blank.comment? d.rest = none := by
      rw [h.rest]
      exact Blank.comment?_append_none ht hc
    rw [blank?_of_comment?_none hd, blank?_of_comment?_none hc, h.rest, Blank.marker?_append ht,
      ← h.lineStart hne]
    cases keep with
    | true => exact .inl rfl
    | false =>
      by_cases hall : (c.rest.takeWhile isSpace).length = c.rest.length
      · right
        refine ⟨rfl, fun x hx => ?_⟩
        rw [← List.IsPrefix.eq_of_length (List.takeWhile_prefix isSpace) hall] at hx
        exact List.mem_takeWhile_imp hx
      · left
        rw [Blank.spaces?, List.takeWhile_append, if_neg hall]
        rfl

theorem Extends.blank?_none (ht : LineEnd tail) (h : Extends tail c d) (hne : c.rest ≠ [])
    (hb : c.blank? keep = none) : d.blank? keep = none := by
  have ho : c.blank? keep ≠ some .openComment := fun hopen => by rw [hb] at hopen; cases hopen
  rcases h.blank?_eq ht hne ho with heq | ⟨rfl, hall⟩
  · rw [heq, hb]
  · -- white space would be a blank of the first text
    obtain ⟨x, rest, hr⟩ := List.exists_cons_of_ne_nil hne
    have hx : isSpace x = true := hall x (by rw [hr]; exact List.mem_cons_self)
    rw [blank?_of_isSpace hr hx] at hb
    cases hb

theorem Extends.blank?_some (ht : LineEnd tail) (h : Extends tail c d) (hne : c.rest ≠ [])
    (hb : c.blank? keep = some b) (ho : b ≠ .openComment) :
    d.blank? keep = some b ∨ (keep = false ∧ ∀ x ∈ c.rest, isSpace x = true) := by
  rw [← hb]
  exact h.blank?_eq ht hne (by rw [hb]; exact fun hopen => ho (Option.some.inj hopen))

/-- What is known of two cursors in step is still known behind a blank that both pass. -/
def Carried (tail : Bytes) (R : Cursor → Cursor → Prop) : Prop :=
  ∀ ⦃c d : Cursor⦄ ⦃keep : Bool⦄ ⦃b : Blank⦄, c.Extends tail d → c.blank? keep = some b →
    b ≠ .openComment → R c d → R (c.pass b) (d.pass b)

end Cursor

/-! ### Skipping in step -/

namespace Scanner

variable {tail : Bytes} {s t : Scanner} {keep : Bool}

/-- Skipping goes blank by blank. -/
theorem skip_induction (keep : Bool) {motive : Scanner → Prop}
    (stop : ∀ s : Scanner, s.cursor.blank? keep = none → motive s)
    (pass : ∀ (s : Scanner) (b : Blank), s.cursor.blank? keep = some b → motive (s.pass b) →
      motive s) (s : Scanner) : motive s := by
  induction hn : s.cursor.rest.length using Nat.strong_induction_on generalizing s with
  | _ n ih =>
    cases hb : s.cursor.blank? keep with
    | none => exact stop s hb
    | some b =>
      have hlt : (s.pass b).cursor.rest.length < n := hn ▸ Cursor.length_rest_pass_lt hb
      exact pass s b hb (ih _ hlt _ rfl)

theorem fault_pass {b : Blank} (h : (s.pass b).fault = none) :
    s.fault = none ∧ b ≠ .openComment := by
  cases b with
  | openComment =>
    simp only [pass, faultAfter] at h
    split at h <;> cases h
  | _ => exact ⟨h, by rintro ⟨⟩⟩

/-- A fault stays. -/
theorem fault_of_skip (h : (s.skip keep).fault = none) : s.fault = none := by
  induction s using skip_induction keep with
  | stop s hb => rwa [skip_of_none hb] at h
  | pass s b hb ih => rw [skip_of_some hb] at h; exact (fault_pass (ih h)).1

theorem rest_skip_suffix (keep : Bool) (s : Scanner) :
    (s.skip keep).cursor.rest <:+ s.cursor.rest := by
  induction s using skip_induction keep with
  | stop s hb => simp only [skip_of_none hb, List.suffix_rfl]
  | pass s b hb ih =>
    rw [skip_of_some hb]
    refine ih.trans ?_
    rw [cursor_pass, Cursor.rest_pass]
    exact List.drop_suffix _ _

theorem fault_pass_eq {b : Blank} (hb : b ≠ .openComment) : (s.pass b).fault = s.fault := by
  cases b with
  | openComment => exact absurd rfl hb
  | _ => rfl

/-- White space at the cursor may be passed beforehand. -/
theorem skip_advanceBy_spaces (s : Scanner) :
    (s.advanceBy (s.cursor.rest.takeWhile isSpace).length).skip false = s.skip false := by
  cases hr : s.cursor.rest with
  | nil => rfl
  | cons x rest =>
    by_cases hx : isSpace x = true
    · rw [skip_of_some (Cursor.blank?_of_isSpace hr hx), hr]
      rfl
    · simp [hx, advanceBy, Cursor.advanceBy]

/-- A single space may be passed beforehand. -/
theorem skip_advanceBy_one {s : Scanner} {x : UInt8} {rest : Bytes}
    (hr : s.cursor.rest = x :: rest) (hx : isSpace x = true) :
    (s.advanceBy 1).skip false = s.skip false := by
  have hrest : (s.advanceBy 1).cursor.rest = rest := by
    rw [advanceBy, Cursor.rest_advanceBy, hr]
    rfl
  have hspaces : (s.cursor.rest.takeWhile isSpace).length =
      (rest.takeWhile isSpace).length + 1 := by
    rw [hr, List.takeWhile_cons_of_pos hx, List.length_cons]
  rw [← s.skip_advanceBy_spaces, ← (s.advanceBy 1).skip_advanceBy_spaces, hrest, hspaces]
  rfl

/-- **Comments are skipped in step,** and what is carried along with them stays known. -/
theorem skip_true_extends {R : Cursor → Cursor → Prop} (hR : Cursor.Carried tail R)
    (ht : LineEnd tail) (h : s.cursor.Extends tail t.cursor) (hst : R s.cursor t.cursor)
    (hf : t.fault = none) (hs : (s.skip true).fault = none) :
    (s.skip true).cursor.Extends tail (t.skip true).cursor ∧
      R (s.skip true).cursor (t.skip true).cursor ∧ (t.skip true).fault = none := by
  induction s using skip_induction true generalizing t with
  | stop s hb =>
    have hb' : t.cursor.blank? true = none := by
      have hcomment := Blank.comment?_append_none ht (Cursor.comment?_of_blank?_none hb)
      exact Cursor.blank?_of_comment?_none (by rw [h.rest, hcomment]) true
    rw [skip_of_none hb, skip_of_none hb']
    exact ⟨h, hst, hf⟩
  | pass s b hb ih =>
    rw [skip_of_some hb] at hs ⊢
    have ho := (fault_pass (fault_of_skip hs)).2
    have hne : s.cursor.rest ≠ [] := fun h₀ => by
      rw [Cursor.blank?_of_rest_nil true h₀] at hb; cases hb
    obtain hb' | ⟨⟨⟩, -⟩ := h.blank?_some ht hne hb ho
    rw [skip_of_some hb']
    exact ih (Cursor.extends_pass h.rest hb ho) (hR h hb ho hst) ((fault_pass_eq ho).trans hf) hs

end Scanner

/-- What follows a text: `tail`, which ends the line and whose first word is at the start of `next`.
No comment is open in front of that word, and the word starts with a letter. -/
structure Boundary where
  tail : Bytes
  next : Bytes
  lineEnd : LineEnd tail
  word : next = [] ∨ next.head?.any isIdentStart = true
  skip : ∀ (s : Scanner) (w : Bytes), (∀ x ∈ w, isSpace x = true) → s.cursor.rest = w ++ tail →
    s.fault = none → (s.skip false).cursor.rest = next ∧ (s.skip false).fault = none

namespace Boundary

/-- The second scanner stands where the first one does, in a text that goes on with `tail`; at the
end of the first text it stands at the first word of `tail`. -/
structure Meets (B : Boundary) (s t : Scanner) : Prop where
  inside : s.cursor.rest ≠ [] → t.cursor.rest = s.cursor.rest ++ B.tail
  atEnd : s.cursor.rest = [] → t.cursor.rest = B.next
  fault : t.fault = none

/-- A position of the first word of `tail`, when the blanks up to there are skipped. -/
def Lands (B : Boundary) (p : Position) : Prop :=
  ∃ (s : Scanner) (w : Bytes), (∀ x ∈ w, isSpace x = true) ∧ s.cursor.rest = w ++ B.tail ∧
    s.fault = none ∧ (s.skip false).cursor.position = p

/-- **Blanks are skipped in step,** and what is carried along with them stays known up to the end of
the first text. -/
theorem skip_carries (B : Boundary) {R : Cursor → Cursor → Prop} (hR : Cursor.Carried B.tail R)
    {s t : Scanner} (h : s.cursor.Extends B.tail t.cursor) (hst : R s.cursor t.cursor)
    (hf : t.fault = none) (hs : (s.skip false).fault = none) :
    B.Meets (s.skip false) (t.skip false) ∧
      ((s.skip false).cursor.rest ≠ [] → R (s.skip false).cursor (t.skip false).cursor) ∧
      ((s.skip false).cursor.rest = [] → B.Lands (t.skip false).cursor.position) := by
  induction s using Scanner.skip_induction false generalizing t with
  | stop s hb =>
    rw [Scanner.skip_of_none hb]
    by_cases hne : s.cursor.rest = []
    · have hr := h.rest
      rw [hne] at hr
      obtain ⟨h₁, h₂⟩ := B.skip t [] (by simp) hr hf
      exact ⟨⟨fun h₀ => absurd hne h₀, fun _ => h₁, h₂⟩, fun h₀ => absurd hne h₀,
        fun _ => ⟨t, [], by simp, hr, hf, rfl⟩⟩
    · rw [Scanner.skip_of_none (h.blank?_none B.lineEnd hne hb)]
      exact ⟨⟨fun _ => h.rest, fun h₀ => absurd h₀ hne, hf⟩, fun _ => hst,
        fun h₀ => absurd h₀ hne⟩
  | pass s b hb ih =>
    have hne : s.cursor.rest ≠ [] := fun h₀ => by
      rw [Cursor.blank?_of_rest_nil false h₀] at hb; cases hb
    have hs' := hs
    rw [Scanner.skip_of_some hb] at hs'
    have ho := (Scanner.fault_pass (Scanner.fault_of_skip hs')).2
    obtain hb' | ⟨-, hall⟩ := h.blank?_some B.lineEnd hne hb ho
    · rw [Scanner.skip_of_some hb, Scanner.skip_of_some hb']
      have hpass := Cursor.extends_pass h.rest hb ho
      exact ih hpass (hR h hb ho hst) ((Scanner.fault_pass_eq ho).trans hf) hs'
    · -- white space up to the end of the first text is one blank with what follows in `tail`
      have hnil : (s.skip false).cursor.rest = [] := by
        have hd : s.cursor.rest.dropWhile isSpace = [] := List.dropWhile_eq_nil_iff.mpr hall
        rw [(skip_spaces (by rw [hd]; exact settled_nil)).1, hd]
      obtain ⟨h₁, h₂⟩ := B.skip t _ hall h.rest hf
      exact ⟨⟨fun h₀ => absurd hnil h₀, fun _ => h₁, h₂⟩, fun h₀ => absurd hnil h₀,
        fun _ => ⟨t, _, hall, h.rest, hf, rfl⟩⟩

theorem skip_extends (B : Boundary) {s t : Scanner} (h : s.cursor.Extends B.tail t.cursor)
    (hf : t.fault = none) (hs : (s.skip false).fault = none) :
    B.Meets (s.skip false) (t.skip false) :=
  (B.skip_carries (R := fun _ _ => True) (fun _ _ _ _ _ _ _ _ => trivial) h trivial hf hs).1

theorem length_next_le (B : Boundary) : B.next.length ≤ B.tail.length := by
  have h := (Scanner.rest_skip_suffix false ⟨Cursor.ofText B.tail [], none⟩).length_le
  rwa [(B.skip ⟨Cursor.ofText B.tail [], none⟩ [] (by simp) rfl rfl).1] at h

/-- Nothing follows the text. -/
def endOfText : Boundary where
  tail := []
  next := []
  lineEnd := .inl rfl
  word := .inl rfl
  skip := by
    intro s w hw hr hf
    have hd : s.cursor.rest.dropWhile isSpace = [] := by
      rw [hr, List.append_nil]
      exact List.dropWhile_eq_nil_iff.mpr hw
    obtain ⟨h₁, h₂⟩ := skip_spaces (s := s) (by rw [hd]; exact settled_nil)
    exact ⟨h₁.trans hd, h₂.trans hf⟩

/-- Any position may be that of the end of the text. -/
theorem lands_endOfText (p : Position) : endOfText.Lands p :=
  ⟨⟨⟨[], [], p⟩, none⟩, [], by simp, rfl, rfl, rfl⟩

/-- Behind the white space that was passed, `text` starts in both texts in the same way. -/
theorem extends_behind_spaces {c : Cursor} {w text : Bytes} (file : Bytes)
    (hw : ∀ x ∈ w, isSpace x = true) (hr : c.rest = w ++ 0x0a :: text) :
    Cursor.Extends [] ((Cursor.ofText text file).advanceBy (text.takeWhile isSpace).length)
      (c.advanceBy (c.rest.takeWhile isSpace).length) := by
  have hspaces : c.rest.takeWhile isSpace = w ++ 0x0a :: text.takeWhile isSpace := by
    rw [hr, List.takeWhile_append_of_pos hw]
    rfl
  have hn := (List.takeWhile_prefix isSpace (l := c.rest)).length_le
  have hk := (List.takeWhile_prefix isSpace (l := text)).length_le
  have hdrop : c.rest.dropWhile isSpace = text.dropWhile isSpace := by
    rw [hr, List.dropWhile_append_of_pos hw]
    rfl
  refine ⟨?_, fun hne => ?_⟩
  · rw [Cursor.rest_advanceBy, Cursor.rest_advanceBy, drop_length_takeWhile, hdrop,
      List.append_nil]
    exact (drop_length_takeWhile isSpace text).symm
  · have hne' : (text.dropWhile isSpace).isEmpty = false := by
      rw [Cursor.rest_advanceBy] at hne
      rw [← drop_length_takeWhile]
      exact List.isEmpty_eq_false_iff.mpr hne
    have hlast : (c.rest.takeWhile isSpace).reverse =
        (text.takeWhile isSpace).reverse ++ 0x0a :: w.reverse := by simp [hspaces]
    have hpos : 0 < (c.rest.takeWhile isSpace).length := by
      rw [hspaces, List.length_append, List.length_cons]
      omega
    rw [Cursor.atLineStart_advanceBy hpos hn, drop_length_takeWhile, hdrop, hne',
      ← List.prefix_iff_eq_take.mp (List.takeWhile_prefix isSpace), hlast]
    -- the text may start with white space of its own, or right behind the newline
    cases hs : text.takeWhile isSpace with
    | nil => rfl
    | cons x rest =>
      rw [← hs, Cursor.atLineStart_advanceBy (by rw [hs]; simp) hk]
      rw [show (Cursor.ofText text file).rest = text from rfl, drop_length_takeWhile, hne',
        ← List.prefix_iff_eq_take.mp (List.takeWhile_prefix isSpace), List.head?_append]
      simp [hs]

/-- A new line follows, and then `text`, which starts with a word if it holds any. -/
def newLine (text file : Bytes) (hf : (Scanner.ofText text file).fault = none)
    (hw : (Scanner.ofText text file).cursor.rest = [] ∨
      (Scanner.ofText text file).cursor.rest.head?.any isIdentStart = true) : Boundary where
  tail := 0x0a :: text
  next := (Scanner.ofText text file).cursor.rest
  lineEnd := .inr ⟨text, rfl⟩
  word := hw
  skip := by
    intro s w hw hr hs
    have hstart : Scanner.ofText text file = ((⟨Cursor.ofText text file, none⟩ : Scanner).advanceBy
        (text.takeWhile isSpace).length).skip false := (Scanner.skip_advanceBy_spaces _).symm
    have h := endOfText.skip_extends
      (s := (⟨Cursor.ofText text file, none⟩ : Scanner).advanceBy (text.takeWhile isSpace).length)
      (t := s.advanceBy (s.cursor.rest.takeWhile isSpace).length)
      (extends_behind_spaces file hw hr) hs (by rw [← hstart]; exact hf)
    rw [← hstart, Scanner.skip_advanceBy_spaces] at h
    refine ⟨?_, h.fault⟩
    by_cases hne : (Scanner.ofText text file).cursor.rest = []
    · rw [h.atEnd hne, hne]; rfl
    · rw [h.inside hne]; exact List.append_nil _

end Boundary

end MiniC.Scan
