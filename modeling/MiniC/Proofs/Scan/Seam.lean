import MiniC.Proofs.Scan.Local
import MiniC.Proofs.Scan.Placing

/-!
# Texts with different ends

Two texts agree up to a seam, behind which the first ends with `old` and the second one with `new`.
The scanners of both are in step in front of the seam (`Joint.Near`): they find the same words there
and the same blanks, as far as a blank does not lie over the seam. Where the first one is not in
front of the seam any more (`Joint.Ahead`) it has come to the end of its text, or to a byte that no
definition goes on with (`Joint.Past`).

A `Seam` is a pair of ends for which this is so: blanks are skipped in step. `Boundary.seam` is the
seam of a text that goes on in a new line.
-/

namespace MiniC

/-- The word does not lie over a seam, if it starts in front of it: no byte of it but the first is
one that an end may start with. No line marker starts with it. -/
def Seamless (w : Bytes) : Prop :=
  w ≠ [] ∧ w.head? ≠ some (ch '#') ∧ w.tail.any Scan.stopBytes.contains = false

/-- The word does not lie over a seam and does not start with a doubtful byte either. -/
def Plain (w : Bytes) : Prop := Seamless w ∧ ¬ Scan.Doubtful w

instance (w : Bytes) : Decidable (Seamless w) := inferInstanceAs (Decidable (_ ∧ _ ∧ _))

instance (w : Bytes) : Decidable (Scan.Doubtful w) := inferInstanceAs (Decidable (_ = true))

instance (w : Bytes) : Decidable (Plain w) := inferInstanceAs (Decidable (_ ∧ _))

theorem seamless_of_isWord {w : Bytes} (h : isWord w = true) : Seamless w := by
  cases w with
  | nil => cases h
  | cons b w =>
    have hall := isIdent_of_isWord h
    refine ⟨List.cons_ne_nil b w, fun hb => ?_, ?_⟩
    · rw [Option.some.inj hb] at hall
      exact absurd (hall _ List.mem_cons_self) (by decide)
    · refine List.any_eq_false.2 fun x hx hstop => ?_
      have hclass : Scan.stopBytes.any isIdent = false := by decide
      exact List.any_eq_false.1 hclass x (List.contains_iff_mem.1 hstop)
        (hall x (List.mem_cons_of_mem b hx))

namespace Seamless

variable {w q k : Bytes}

theorem length_pos (hw : Seamless w) : 0 < w.length := List.length_pos_iff.2 hw.1

theorem isPrefixOf_append (hk : Scan.Stops k) : ∀ {w : Bytes} (q : Bytes),
    w.any Scan.stopBytes.contains = false → w.isPrefixOf (q ++ k) = w.isPrefixOf q
  | [], _, _ => by simp
  | b :: w, [], hw => by
    cases k with
    | nil => rfl
    | cons c k =>
      have hb : (b == c) = false := by
        refine beq_eq_false_iff_ne.2 ?_
        rintro rfl
        exact List.any_eq_false.1 hw b List.mem_cons_self hk
      rw [List.nil_append, List.isPrefixOf_cons_cons, hb]
      rfl
  | b :: w, c :: q, hw => by
    rw [List.any_cons, Bool.or_eq_false_iff] at hw
    rw [List.cons_append, List.isPrefixOf_cons_cons, List.isPrefixOf_cons_cons,
      isPrefixOf_append hk q hw.2]

/-- **A word that starts in front of the seam is found there or not at all.** -/
theorem leads_append (hw : Seamless w) (hq : q ≠ []) (hk : Scan.Stops k) :
    leads w (q ++ k) = leads w q := by
  have hfound : w.isPrefixOf (q ++ k) = w.isPrefixOf q := by
    cases w with
    | nil => exact absurd rfl hw.1
    | cons b w =>
      cases q with
      | nil => exact absurd rfl hq
      | cons c q =>
        rw [List.cons_append, List.isPrefixOf_cons_cons, List.isPrefixOf_cons_cons,
          isPrefixOf_append (w := w) hk q hw.2.2]
  rw [leads, leads, hfound]
  cases hp : w.isPrefixOf q with
  | false => rfl
  | true =>
    have hlength := (List.isPrefixOf_iff_prefix.1 hp).length_le
    rw [List.drop_append_of_le_length hlength]
    cases hd : q.drop w.length with
    | nil => rw [List.nil_append, hk.head_any (by decide)]; rfl
    | cons b r => rfl

theorem head?_of_leads {s : Bytes} (hw : Seamless w) (h : leads w s = true) :
    s.head? = w.head? := by
  obtain ⟨r, rfl⟩ := (leads_iff.1 h).1
  exact List.head?_append_of_ne_nil w hw.1

end Seamless

theorem Plain.not_doubtful_of_leads {w s : Bytes} (hw : Plain w) (h : leads w s = true) :
    ¬ Scan.Doubtful s := by
  rw [Scan.Doubtful, hw.1.head?_of_leads h]
  exact hw.2

namespace Scan

/-- The ends of two texts that agree in front of them. When the first text is read to its end, the
second one is at `next`, at one of the positions `Lands`. -/
structure Joint where
  old : Bytes
  new : Bytes
  next : Bytes
  Lands : Position → Prop

namespace Joint

/-- The text left starts in front of the seam. A single slash does not count: with what follows in
the second text it may be a comment. -/
def Before (J : Joint) (r : Bytes) : Prop := (∃ q, q ≠ [] ∧ r = q ++ J.old) ∧ r ≠ [ch '/']

/-- The cursor is in front of the seam, and not at a line that may be a line marker in the second
text only. -/
def Ahead (J : Joint) (c : Cursor) : Prop :=
  J.Before c.rest ∧ ¬ (c.atLineStart = true ∧ c.rest.head? = some (ch '#'))

/-- The cursors are at the same place in front of the seam, and their positions match. -/
structure Near (J : Joint) (M : Placing) (c d : Cursor) : Prop where
  rest : ∃ q, q ≠ [] ∧ c.rest = q ++ J.old ∧ d.rest = q ++ J.new
  places : M.Places c d

/-- The first cursor is at the end of its text, or no definition goes on from either cursor. -/
inductive Past (J : Joint) (c d : Cursor) : Prop
  | atEnd : c.rest = [] → d.rest = J.next → J.Lands d.position → Past J c d
  | astray : c.rest ≠ [] → Doubtful c.rest → Doubtful d.rest → Past J c d

/-- The cursors are in step, in front of the seam and behind it. -/
structure Meets (J : Joint) (M : Placing) (c d : Cursor) : Prop where
  ahead : J.Ahead c → J.Near M c d
  past : ¬ J.Ahead c → J.Past c d

/-- Some bytes in front of the seam and the blanks behind them are passed in step. -/
def SkipsInStep (J : Joint) (M : Placing) : Prop :=
  ∀ ⦃s t : Scanner⦄ ⦃n : Nat⦄, J.Near M s.cursor t.cursor → 0 < n →
    J.old.length + n ≤ s.cursor.rest.length → t.fault = none →
    ((s.advanceBy n).skip false).fault = none →
      J.Meets M ((s.advanceBy n).skip false).cursor ((t.advanceBy n).skip false).cursor ∧
        ((t.advanceBy n).skip false).fault = none

/-- Some bytes in front of the seam and the comments behind them are passed in step, as long as this
does not lead over the seam. -/
def KeepsInStep (J : Joint) (M : Placing) : Prop :=
  ∀ ⦃s t : Scanner⦄ ⦃n : Nat⦄, J.Near M s.cursor t.cursor → 0 < n →
    J.old.length + n ≤ s.cursor.rest.length → t.fault = none →
    ((s.advanceBy n).skip true).fault = none →
      (J.Before ((s.advanceBy n).skip true).cursor.rest →
        J.Near M ((s.advanceBy n).skip true).cursor ((t.advanceBy n).skip true).cursor) ∧
      ((t.advanceBy n).skip true).fault = none

variable {J : Joint} {M : Placing} {c d : Cursor} {n : Nat}

theorem Ahead.rest_ne_nil (h : J.Ahead c) : c.rest ≠ [] := by
  obtain ⟨⟨⟨q, hq, hr⟩, -⟩, -⟩ := h
  rw [hr]
  exact List.append_ne_nil_of_left_ne_nil hq J.old

/-- A cursor whose text left goes on with that of a cursor ahead is ahead itself. -/
theorem Ahead.of_suffix (h : J.Ahead d) (h₀ : 0 < n) (hsuffix : d.rest <:+ c.rest.drop n)
    (hhash : c.rest.head? ≠ some (ch '#')) : J.Ahead c := by
  have hne := List.length_pos_iff.2 h.rest_ne_nil
  obtain ⟨⟨⟨q, hq, hr⟩, -⟩, -⟩ := h
  obtain ⟨w, hw⟩ := hsuffix
  have hc : c.rest = (c.rest.take n ++ (w ++ q)) ++ J.old := by
    conv_lhs => rw [← List.take_append_drop n c.rest, ← hw, hr]
    simp only [List.append_assoc]
  refine ⟨⟨⟨_, ?_, hc⟩, fun hslash => ?_⟩, fun hstart => hhash hstart.2⟩
  · exact List.append_ne_nil_of_right_ne_nil _ (List.append_ne_nil_of_right_ne_nil w hq)
  · have hlength := congrArg List.length hw
    rw [hslash, List.length_append, List.length_drop, List.length_singleton] at hlength
    omega

/-- For a cursor in front of the seam there is one at the same place of the second text. -/
theorem exists_near (J : Joint) (ha : M.Allows c.text) : ∃ d, J.Ahead c → J.Near M c d := by
  by_cases hc : J.Ahead c
  · obtain ⟨⟨⟨q, hq, hr⟩, -⟩, -⟩ := hc
    obtain ⟨p, hp⟩ := M.exists_right c.position
    exact ⟨⟨c.before, q ++ J.new, p⟩, fun _ => ⟨⟨q, hq, hr, rfl⟩, ha, fun _ => hp⟩⟩
  · exact ⟨c, fun h => absurd h hc⟩

/-- Moving over bytes in front of the seam. -/
theorem Near.advanceBy (h : J.Near M c d) (hn : J.old.length + n < c.rest.length) :
    J.Near M (c.advanceBy n) (d.advanceBy n) := by
  obtain ⟨q, hq, hc, hd⟩ := h.rest
  rw [hc, List.length_append] at hn
  have hlt : n < q.length := by omega
  refine ⟨⟨q.drop n, ?_, ?_, ?_⟩, h.places.advanceBy_front hc hd hlt⟩
  · exact List.ne_nil_of_length_pos (by rw [List.length_drop]; omega)
  · rw [Cursor.rest_advanceBy, hc, List.drop_append_of_le_length hlt.le]
  · rw [Cursor.rest_advanceBy, hd, List.drop_append_of_le_length hlt.le]

theorem Near.head? (h : J.Near M c d) : d.rest.head? = c.rest.head? := by
  obtain ⟨q, hq, hc, hd⟩ := h.rest
  rw [hc, hd, List.head?_append_of_ne_nil _ hq, List.head?_append_of_ne_nil _ hq]

end Joint

/-- Ends of two texts that agree in front of them, where blanks are skipped in step. The first end
holds question marks only, and both start with bytes that end a word. -/
structure Seam (M : Placing) extends Joint where
  marks : ∀ b ∈ old, b = ch '?'
  stops : Stops new
  length_le : old.length + next.length ≤ new.length
  word : next = [] ∨ next.head?.any isIdentStart = true
  skips : toJoint.SkipsInStep M
  keeps : toJoint.KeepsInStep M

namespace Seam

variable {M : Placing} {S : Seam M} {c d : Cursor} {w : Bytes}

/-- The text ends as the first text does, and positions can be compared in it. -/
structure Allows (S : Seam M) (text : Bytes) : Prop where
  allowed : M.Allows text
  ends : S.old <:+ text

/-- A cursor at a byte that is not doubtful is in front of the seam. -/
theorem Allows.ahead (ha : S.Allows c.text) (h : ¬ Doubtful c.rest) : S.Ahead c := by
  have hbefore : ∃ q, q ≠ [] ∧ c.rest = q ++ S.old := by
    have hrest : c.rest <:+ c.text := List.suffix_append _ _
    rcases List.suffix_or_suffix_of_suffix ha.ends hrest with ⟨q, hq⟩ | hmarks
    · rw [← hq] at h ⊢
      exact ⟨q, front_ne_nil_of_marks h S.marks, rfl⟩
    · -- only question marks would be left
      have hne := front_ne_nil_of_marks (q := []) h fun b hb => S.marks b (hmarks.subset hb)
      exact absurd rfl hne
  refine ⟨⟨hbefore, fun hslash => h ?_⟩, fun hstart => h ?_⟩
  · rw [hslash]
    rfl
  · rw [Doubtful, hstart.2]
    rfl

/-- All that stands before a byte that is not doubtful is in front of the seam. -/
theorem Allows.exists_front {n : Nat} (ha : S.Allows c.text) (hn : n ≤ c.rest.length)
    (h : ¬ Doubtful (c.rest.drop n)) : ∃ q, n < q.length ∧ c.rest = q ++ S.old := by
  have hahead : S.Ahead (c.advanceBy n) := by
    refine Allows.ahead ?_ ?_
    · rwa [Cursor.text_advanceBy]
    · rwa [Cursor.rest_advanceBy]
  obtain ⟨⟨⟨q, hq, hr⟩, -⟩, -⟩ := hahead
  rw [Cursor.rest_advanceBy] at hr
  refine ⟨c.rest.take n ++ q, ?_, ?_⟩
  · have := List.length_pos_iff.2 hq
    rw [List.length_append, List.length_take_of_le hn]
    omega
  · rw [List.append_assoc, ← hr, List.take_append_drop]

theorem stops_old (S : Seam M) : Stops S.old := stops_of_marks S.marks

/-- **In front of the seam both texts have the same words.** -/
theorem leads_eq (h : S.Near M c d) (hw : Seamless w) : leads w d.rest = leads w c.rest := by
  obtain ⟨q, hq, hc, hd⟩ := h.rest
  rw [hc, hd, hw.leads_append hq S.stops, hw.leads_append hq S.stops_old]

theorem length_of_leads (h : S.Near M c d) (hw : Seamless w) (hl : leads w c.rest = true) :
    S.old.length + w.length ≤ c.rest.length := by
  obtain ⟨q, hq, hc, hd⟩ := h.rest
  rw [hc, hw.leads_append hq S.stops_old] at hl
  have := (leads_iff.1 hl).1.length_le
  rw [hc, List.length_append]
  omega

/-- Behind the seam a mark is found in neither text. -/
theorem leads_past (h : S.Past c d) (hw : Plain w) (hm : w.head?.any isIdentStart = false) :
    leads w c.rest = false ∧ leads w d.rest = false := by
  have hnil : leads w [] = false := by
    cases w with
    | nil => exact absurd rfl hw.1.1
    | cons b w => rfl
  have hmiss : ∀ s : Bytes, Doubtful s → leads w s = false := fun s hs =>
    Bool.eq_false_iff.2 fun hl => hw.not_doubtful_of_leads hl hs
  cases h with
  | atEnd hc hd _ =>
    rw [hc, hd]
    refine ⟨hnil, ?_⟩
    rcases S.word with hnext | hnext
    · rw [hnext, hnil]
    · refine Bool.eq_false_iff.2 fun hl => ?_
      rw [hw.1.head?_of_leads hl, hm] at hnext
      cases hnext
  | astray _ hc hd => exact ⟨hmiss _ hc, hmiss _ hd⟩

end Seam

/-! ### New lines -/

namespace Boundary

theorem stops_tail (B : Boundary) : Stops B.tail := by
  rcases B.lineEnd with h | ⟨r, h⟩
  · rw [h]
    rfl
  · rw [h]
    rfl

/-- The first text ends, and the second one goes on in a new line. -/
def joint (B : Boundary) : Joint := ⟨[], B.tail, B.next, B.Lands⟩

variable {B : Boundary} {M : Placing} {c d : Cursor}

theorem extends_of_near {n : Nat} (h : B.joint.Near M c d) (h₀ : 0 < n)
    (hn : n ≤ c.rest.length) : Cursor.Extends B.tail (c.advanceBy n) (d.advanceBy n) ∧
      M.Places (c.advanceBy n) (d.advanceBy n) := by
  obtain ⟨q, -, hc, hd⟩ := h.rest
  have hrest : d.rest = c.rest ++ B.tail := by
    rw [hc, hd]
    exact congrArg (· ++ B.tail) (List.append_nil q).symm
  exact ⟨Cursor.extends_advanceBy hrest h₀ hn, h.places.advanceBy n hrest⟩

theorem near_of_rest (hc : c.rest ≠ []) (hd : d.rest = c.rest ++ B.tail) (h : M.Places c d) :
    B.joint.Near M c d :=
  ⟨⟨c.rest, hc, (List.append_nil c.rest).symm, hd⟩, h⟩

/-- Where no blank is left the cursors are in step as the seam wants it. -/
theorem meets_joint {s t : Scanner} (h : B.Meets s t)
    (hplaces : s.cursor.rest ≠ [] → M.Places s.cursor t.cursor)
    (hlands : s.cursor.rest = [] → B.Lands t.cursor.position) :
    B.joint.Meets M s.cursor t.cursor where
  ahead := fun ha =>
    near_of_rest ha.rest_ne_nil (h.inside ha.rest_ne_nil) (hplaces ha.rest_ne_nil)
  past := by
    intro ha
    by_cases hr : s.cursor.rest = []
    · exact .atEnd hr (h.atEnd hr) (hlands hr)
    · -- a single slash or a hash at the start of a line, which the second text has as well
      have hdoubt : Doubtful s.cursor.rest := by
        by_contra hdoubt
        refine ha ⟨⟨⟨_, hr, (List.append_nil _).symm⟩, fun hslash => hdoubt ?_⟩,
          fun hstart => hdoubt ?_⟩
        · rw [hslash]
          rfl
        · rw [Doubtful, hstart.2]
          rfl
      refine .astray hr hdoubt ?_
      rwa [Doubtful, h.inside hr, List.head?_append_of_ne_nil _ hr]

theorem marks_joint (B : Boundary) : ∀ b ∈ B.joint.old, b = ch '?' := by
  intro b hb
  cases hb

theorem length_joint_le (B : Boundary) :
    B.joint.old.length + B.joint.next.length ≤ B.joint.new.length := by
  have := B.length_next_le
  simpa [joint] using this

theorem skipsInStep (B : Boundary) (M : Placing) : B.joint.SkipsInStep M := by
  intro s t n h h₀ hn hf hs
  obtain ⟨hext, hplaces⟩ := extends_of_near h h₀ (by simpa [joint] using hn)
  obtain ⟨hmeets, hcarried, hlands⟩ := B.skip_carries (M.carried_places B.tail)
    (s := s.advanceBy n) (t := t.advanceBy n) hext hplaces hf hs
  exact ⟨meets_joint hmeets hcarried hlands, hmeets.fault⟩

theorem keepsInStep (B : Boundary) (M : Placing) : B.joint.KeepsInStep M := by
  intro s t n h h₀ hn hf hs
  obtain ⟨hext, hplaces⟩ := extends_of_near h h₀ (by simpa [joint] using hn)
  obtain ⟨hext', hplaces', hf'⟩ := Scanner.skip_true_extends (t := t.advanceBy n)
    (M.carried_places B.tail) B.lineEnd hext hplaces hf hs
  refine ⟨fun hbefore => near_of_rest ?_ hext'.rest hplaces', hf'⟩
  obtain ⟨⟨q, hq, hr⟩, -⟩ := hbefore
  rw [hr]
  exact List.append_ne_nil_of_left_ne_nil hq _

/-- **The seam of a text that goes on in a new line.** -/
def seam (B : Boundary) (M : Placing) : Seam M where
  toJoint := B.joint
  marks := B.marks_joint
  stops := B.stops_tail
  length_le := B.length_joint_le
  word := B.word
  skips := B.skipsInStep M
  keeps := B.keepsInStep M

end Boundary

end Scan

end MiniC
