import MiniC.Proofs.Macro.Partition
import MiniC.Proofs.Scan.CommentText
import MiniC.Proofs.Scan.MarkerText
import MiniC.Proofs.Scan.Seam
import MiniC.Proofs.Source.AppendedLine

/-!
# A comment at the end of the last line

Two texts that only differ in the end of their last line, as a `JoinedEnd` says, have the same
blanks up to there (`blank?_joined`). A comment or a line marker in the last line runs to the end of
either text. Two things may be a blank in the second text only: a slash at the end of the first
text, which starts a comment together with the one behind it, and a line `#…`, which may be a line
marker if a quote in it is closed further on. No definition goes on with either of them.

So blanks are skipped in step (`skip_joined`), and the ends make up a seam (`exists_seam_joined`).
-/

namespace MiniC.Scan

open Blank

/-- How the blanks at the front of two texts go together that agree in `q`. Line markers are looked
for in case `markers` holds. -/
inductive Paired (markers : Prop) (q s t : Bytes) : Option Blank → Option Blank → Prop
  /-- Neither text has one. -/
  | neither : Paired markers q s t none none
  /-- Both have the same one, in the part that they share. -/
  | within {b : Blank} : b ≠ .openComment → b.width s ≤ q.length → b.width t = b.width s →
    Paired markers q s t (some b) (some b)
  /-- Both have one that runs to the end. -/
  | toEnd {b b' : Blank} : b.width s = s.length → b' ≠ .openComment → b'.width t = t.length →
    Paired markers q s t (some b) (some b')
  /-- The first text has a line that is a marker in the second text only. -/
  | second {b : Blank} : markers → s.head? = some (ch '#') → b ≠ .openComment →
    b.width t = t.length → Paired markers q s t none (some b)
  /-- The first text has a comment that is not closed. -/
  | unclosed {b : Blank} : Paired markers q s t (some .openComment) (some b)

section Blanks

variable {markers : Prop} {old new q : Bytes} (h : JoinedEnd old new)

include h

/-- Up to a newline in the common part both lines are the same, and otherwise they are the last. -/
theorem takeWhile_line_joined (r : Bytes) :
    (r ++ new).takeWhile (· != 0x0a) = (r ++ old).takeWhile (· != 0x0a) ∧
        ((r ++ old).takeWhile (· != 0x0a)).length ≤ r.length ∨
      (r ++ old).takeWhile (· != 0x0a) = r ++ old ∧
        (r ++ new).takeWhile (· != 0x0a) = r ++ new := by
  have hall : ∀ {l : Bytes}, (0x0a : UInt8) ∉ l → ∀ b ∈ l, (b != 0x0a) = true := by
    intro l hl b hb
    rw [bne_iff_ne]
    rintro rfl
    exact hl hb
  by_cases hr : (0x0a : UInt8) ∈ r
  · left
    have hline : ∀ k : Bytes, (r ++ k).takeWhile (· != 0x0a) = r.takeWhile (· != 0x0a) := by
      intro k
      rw [List.takeWhile_append, if_neg]
      intro hlength
      have heq := (List.takeWhile_prefix (· != 0x0a)).eq_of_length hlength
      rw [← heq] at hr
      exact absurd (List.mem_takeWhile_imp hr) (by decide)
    rw [hline, hline]
    exact ⟨rfl, (List.takeWhile_prefix _).length_le⟩
  · right
    refine ⟨List.takeWhile_eq_self_iff.2 ?_, List.takeWhile_eq_self_iff.2 ?_⟩
    · exact List.forall_mem_append.2 ⟨hall hr, hall h.newline_notMem_old⟩
    · exact List.forall_mem_append.2 ⟨hall hr, hall h.newline_notMem_new⟩

omit h in
theorem newline_notMem_of_takeWhile {s : Bytes} (hs : s.takeWhile (· != 0x0a) = s) :
    (0x0a : UInt8) ∉ s := by
  intro hmem
  rw [← hs] at hmem
  exact absurd (List.mem_takeWhile_imp hmem) (by decide)

/-- A line comment ends in the common part or runs to the end. -/
theorem lineComment_joined (r : Bytes) :
    Paired markers (ascii "//" ++ r) (ascii "//" ++ r ++ old) (ascii "//" ++ r ++ new)
      (comment? (ascii "//" ++ r ++ old)) (comment? (ascii "//" ++ r ++ new)) := by
  have hlength (s : Bytes) : (ascii "//" ++ s).length = 2 + s.length := List.length_append
  simp only [List.append_assoc, comment?_line]
  rcases takeWhile_line_joined h r with ⟨heq, hle⟩ | ⟨hold, hnew⟩
  · rw [heq]
    refine .within (by rintro ⟨⟩) ?_ rfl
    rw [width, hlength]
    omega
  · rw [hold, hnew]
    refine .toEnd ?_ (by rintro ⟨⟩) ?_
    · rw [width, hlength]
    · rw [width, hlength]

/-- A block comment that is closed is closed in the common part. -/
theorem blockComment_joined (r : Bytes) :
    Paired markers (ascii "/*" ++ r) (ascii "/*" ++ r ++ old) (ascii "/*" ++ r ++ new)
      (comment? (ascii "/*" ++ r ++ old)) (comment? (ascii "/*" ++ r ++ new)) := by
  have hcomment : ∀ k, comment? (ascii "/*" ++ r ++ k) =
      some ((closingLength? 2 (r ++ k)).elim .openComment .blockComment) := fun k => rfl
  rw [hcomment, hcomment]
  cases hclosing : closingLength? 2 (r ++ old) with
  | none => exact .unclosed
  | some n =>
    obtain ⟨body, k, hr, hbody, rfl⟩ := exists_mark_of_closingLength? hclosing
    have hlast : (body ++ ascii "*/").getLast? ≠ some (ch '?') := by
      have hslash : (ascii "*/").getLast? = some (ch '/') := rfl
      rw [List.getLast?_append, hslash]
      rintro ⟨⟩
    rw [← List.append_assoc] at hr
    obtain ⟨c, rfl, -⟩ := exists_before_marks h.marks hlast hr
    have hnew : closingLength? 2 (body ++ ascii "*/" ++ c ++ new) = some (2 + body.length + 2) := by
      rw [List.append_assoc, List.append_assoc]
      exact closingLength?_append_mark hbody _ 2
    rw [hnew]
    refine .within (by rintro ⟨⟩) ?_ rfl
    have htwo : (ascii "/*").length = 2 ∧ (ascii "*/").length = 2 := ⟨rfl, rfl⟩
    simp only [width, Option.elim, List.length_append, htwo]
    omega

/-- **Comments:** a slash at the end of the first text apart, both texts have one or neither has. -/
theorem comment?_joined (hq : q ≠ []) (hslash : q ++ old ≠ [ch '/']) :
    (comment? (q ++ old) = none ∧ comment? (q ++ new) = none) ∨
      ∃ b b', comment? (q ++ old) = some b ∧ comment? (q ++ new) = some b' ∧
        Paired markers q (q ++ old) (q ++ new) (some b) (some b') := by
  have hnone : ∀ {x y : UInt8}, ¬ (x = ch '/' ∧ y = ch '/') → ¬ (x = ch '/' ∧ y = ch '*') →
      ∀ r, comment? (x :: y :: r) = none := by
    intro x y hline hblock r
    rw [comment?, if_neg (by simpa using hline), if_neg (by simpa using hblock)]
  rcases q with _ | ⟨x, _ | ⟨y, r⟩⟩
  · exact absurd rfl hq
  · left
    cases h with
    | behind _ =>
      have hx : x ≠ ch '/' := fun hx => hslash (by rw [hx]; rfl)
      exact ⟨rfl, comment?_of_ne _ hx⟩
    | trigraph _ =>
      exact ⟨hnone (fun hx => absurd hx.2 (by decide)) (fun hx => absurd hx.2 (by decide)) _,
        hnone (fun hx => absurd hx.2 (by decide)) (fun hx => absurd hx.2 (by decide)) _⟩
  · by_cases hline : x = ch '/' ∧ y = ch '/'
    · obtain ⟨rfl, rfl⟩ := hline
      exact .inr ⟨_, _, rfl, rfl, lineComment_joined h r⟩
    by_cases hblock : x = ch '/' ∧ y = ch '*'
    · obtain ⟨rfl, rfl⟩ := hblock
      exact .inr ⟨_, _, rfl, rfl, blockComment_joined h r⟩
    exact .inl ⟨hnone hline hblock _, hnone hline hblock _⟩

/-- White space ends in the common part. -/
theorem spaces?_joined : spaces? (q ++ old) = spaces? q ∧ spaces? (q ++ new) = spaces? q := by
  have hold : old.head?.any isSpace = false := by cases h <;> rfl
  have hnew : new.head?.any isSpace = false := by cases h <;> rfl
  rw [spaces?, spaces?, spaces?, takeWhile_append_of_head hold, takeWhile_append_of_head hnew]
  exact ⟨rfl, rfl⟩

/-- A marker in the last line is one whatever the line ends with. -/
theorem exists_marker_joined {b : Blank} (hlast : (0x0a : UInt8) ∉ q ++ old)
    (hb : marker? (q ++ old) = some b) :
    b.width (q ++ old) = (q ++ old).length ∧ ∃ b', marker? (q ++ new) = some b' := by
  obtain ⟨m, k, hm, hk, rfl⟩ := exists_marker_of_marker? hb
  obtain rfl : k = [] := by
    rcases hk with rfl | ⟨r, rfl⟩
    · rfl
    · rw [hm] at hlast
      exact absurd (List.mem_append_right _ List.mem_cons_self) hlast
  rw [List.append_nil] at hm
  refine ⟨by rw [hm]; rfl, ?_⟩
  -- the name is closed in the common part
  set w := ch '#' :: (m.indent ++ (m.digits ++ (m.gap ++ ch '"' :: m.quoted))) with hw
  have htext : ∀ flags, ch '#' :: (m.indent ++ (m.digits ++ (m.gap ++ ch '"' ::
      (m.quoted ++ flags)))) = w ++ flags := by
    intro flags
    simp [hw]
  have hlast' : w.getLast? ≠ some (ch '?') := by
    have hquote : w.getLast? = some (ch '"') := by
      simp [hw, List.getLast?_cons, List.getLast?_append, m.quoted_closed.getLast?]
    rw [hquote]
    decide
  obtain ⟨c, rfl, hflags⟩ :=
    exists_before_marks h.marks hlast' (hm.trans (htext m.flags))
  have hline : (0x0a : UInt8) ∉ m.quoted ++ (c ++ new) := by
    have hquoted := m.inLine
    rw [hflags] at hquoted
    simp only [List.mem_append, not_or] at hquoted ⊢
    exact ⟨hquoted.1, hquoted.2.1, h.newline_notMem_new⟩
  let m' : Marker := { m with flags := c ++ new, inLine := hline }
  have htext' : w ++ c ++ new = m'.text ++ [] := by
    rw [List.append_nil, List.append_assoc]
    exact (htext (c ++ new)).symm
  exact ⟨_, by rw [htext']; exact m'.marker?_text (.inl rfl)⟩

/-- **Line markers:** where only one of the texts has one, it is in the last line. -/
theorem marker?_joined (hmarkers : markers) (hq : q ≠ []) :
    Paired markers q (q ++ old) (q ++ new) (marker? (q ++ old)) (marker? (q ++ new)) := by
  obtain ⟨x, r, rfl⟩ := List.exists_cons_of_ne_nil hq
  by_cases hx : x = ch '#'
  swap
  · have hnone : ∀ k, marker? (x :: r ++ k) = none := fun k => if_neg hx
    rw [hnone, hnone]
    exact .neither
  subst hx
  have hwidth : ∀ {k : Bytes} {b : Blank}, marker? (ch '#' :: r ++ k) = some b →
      b ≠ .openComment ∧ ∀ s, b.width s = ((ch '#' :: r ++ k).takeWhile (· != 0x0a)).length := by
    intro k b hb
    obtain ⟨rest, line, file, hrest, -, rfl⟩ := marker?_eq_some hb
    obtain rfl : r ++ k = rest := (List.cons.inj hrest).2
    exact ⟨by rintro ⟨⟩, fun s => rfl⟩
  rcases takeWhile_line_joined h (ch '#' :: r) with ⟨heq, hle⟩ | ⟨hold, hnew⟩
  · have hmarker : marker? (ch '#' :: r ++ new) = marker? (ch '#' :: r ++ old) := by
      simp only [List.cons_append] at heq
      simp only [marker?, List.cons_append, heq]
    rw [hmarker]
    cases hb : marker? (ch '#' :: r ++ old) with
    | none => exact .neither
    | some b =>
      obtain ⟨hopen, hb⟩ := hwidth hb
      exact .within hopen (by rw [hb]; exact hle) (by rw [hb, hb])
  · cases hb' : marker? (ch '#' :: r ++ new) with
    | none =>
      cases hb : marker? (ch '#' :: r ++ old) with
      | none => exact .neither
      | some b =>
        obtain ⟨-, b', hsome⟩ := exists_marker_joined h (newline_notMem_of_takeWhile hold) hb
        rw [hb'] at hsome
        cases hsome
    | some b' =>
      obtain ⟨hopen, hb'⟩ := hwidth hb'
      have hend := (hb' (ch '#' :: r ++ new)).trans (congrArg List.length hnew)
      cases hb : marker? (ch '#' :: r ++ old) with
      | none => exact .second hmarkers rfl hopen hend
      | some b => exact .toEnd (((hwidth hb).2 _).trans (congrArg List.length hold)) hopen hend

/-- **What stands at the cursors:** the same blank in both texts, as far as it does not run to the
end. -/
theorem blank?_joined {c d : Cursor} (hc : c.rest = q ++ old) (hd : d.rest = q ++ new) (hq : q ≠ [])
    (hslash : c.rest ≠ [ch '/']) (hstart : c.atLineStart = d.atLineStart) (keep : Bool) :
    Paired (keep = false ∧ c.atLineStart = true) q c.rest d.rest (c.blank? keep)
      (d.blank? keep) := by
  rw [hc] at hslash
  rcases comment?_joined h hq hslash with ⟨hold, hnew⟩ | ⟨b, b', hold, hnew, hpaired⟩
  · rw [← hc] at hold
    rw [← hd] at hnew
    rw [Cursor.blank?_of_comment?_none hold, Cursor.blank?_of_comment?_none hnew]
    cases keep with
    | true => exact .neither
    | false =>
      obtain ⟨hsold, hsnew⟩ := spaces?_joined (q := q) h
      rw [hc, hd, hsold, hsnew, ← hstart]
      cases hs : spaces? q with
      | some b =>
        obtain ⟨-, hb⟩ := spaces?_eq_some hs
        have hle := (width_bounds_of_spaces? hs).2
        subst hb
        exact .within (by rintro ⟨⟩) hle rfl
      | none =>
        cases hline : c.atLineStart with
        | false => exact .neither
        | true => exact marker?_joined h ⟨rfl, rfl⟩ hq
  · rw [← hc] at hold
    rw [← hd] at hnew
    rw [Cursor.blank?_of_comment? hold, Cursor.blank?_of_comment? hnew, hc, hd]
    exact hpaired

end Blanks

/-! ### Skipping in step -/

/-- The ends of the texts. Nothing follows the first word behind the seam: there is none. -/
def joinedEnds (old new : Bytes) : Joint := ⟨old, new, [], fun _ => True⟩

/-- Where nothing is left nothing is skipped. -/
theorem Scanner.skip_of_rest_nil {s : Scanner} (keep : Bool) (h : s.cursor.rest = []) :
    s.skip keep = s :=
  skip_of_none (Cursor.blank?_of_rest_nil keep h)

/-- A blank that runs to the end is the last one. -/
theorem Scanner.skip_toEnd {s : Scanner} {b : Blank} {keep : Bool}
    (hb : s.cursor.blank? keep = some b) (hopen : b ≠ .openComment)
    (hend : b.width s.cursor.rest = s.cursor.rest.length) :
    (s.skip keep).cursor.rest = [] ∧ (s.skip keep).fault = s.fault := by
  have hnil : (s.pass b).cursor.rest = [] := by
    rw [cursor_pass, Cursor.rest_pass, hend, List.drop_length]
  rw [skip_of_some hb, skip_of_rest_nil keep hnil]
  exact ⟨hnil, fault_pass_eq hopen⟩

/-- A line comment without a newline runs to the end. -/
theorem Scanner.skip_lastComment {s : Scanner} {body : Bytes} (keep : Bool)
    (hs : s.cursor.rest = ascii "//" ++ body) (hbody : (0x0a : UInt8) ∉ body) :
    (s.skip keep).cursor.rest = [] ∧ (s.skip keep).fault = s.fault := by
  have hend : s.cursor.rest = ascii "//" ++ body ++ [] := by rw [hs, List.append_nil]
  have hrest := Scanner.rest_advanceBy_length hend
  rw [skip_comment keep (.line hbody (.inl rfl)) hend, skip_of_rest_nil keep hrest]
  exact ⟨hrest, rfl⟩

/-- What is known of two scanners that have skipped the blanks. -/
structure InStep (J : Joint) (keep : Bool) (s t : Scanner) : Prop where
  meets : J.Meets .anywhere s.cursor t.cursor
  before : keep = true → J.Before s.cursor.rest → J.Near .anywhere s.cursor t.cursor
  fault : t.fault = none

section Skip

variable {old new q : Bytes} {keep : Bool} {s t : Scanner}

theorem InStep.near (hq : q ≠ []) (hs : s.cursor.rest = q ++ old) (ht : t.cursor.rest = q ++ new)
    (hslash : s.cursor.rest ≠ [ch '/']) (hf : t.fault = none) :
    InStep (joinedEnds old new) keep s t := by
  have hnear : (joinedEnds old new).Near .anywhere s.cursor t.cursor :=
    ⟨⟨q, hq, hs, ht⟩, Placing.places_anywhere _ _⟩
  refine ⟨⟨fun _ => hnear, fun hahead => ?_⟩, fun _ _ => hnear, hf⟩
  -- the first scanner is at a hash that starts a line
  have hhash : s.cursor.rest.head? = some (ch '#') := by
    by_contra hhash
    exact hahead ⟨⟨⟨q, hq, hs⟩, hslash⟩, fun hline => hhash hline.2⟩
  refine .astray ?_ ?_ ?_
  · rw [hs]
    exact List.append_ne_nil_of_left_ne_nil hq old
  · rw [Doubtful, hhash]
    rfl
  · rw [Doubtful, hnear.head?, hhash]
    rfl

theorem InStep.past {J : Joint} (h : J.Past s.cursor t.cursor) (hbefore : ¬ J.Before s.cursor.rest)
    (hf : t.fault = none) : InStep J keep s t :=
  ⟨⟨fun hahead => absurd hahead.1 hbefore, fun _ => h⟩, fun _ hr => absurd hr hbefore, hf⟩

theorem InStep.atEnd (hs : s.cursor.rest = []) (ht : t.cursor.rest = []) (hf : t.fault = none) :
    InStep (joinedEnds old new) keep s t := by
  refine .past (.atEnd hs ht trivial) ?_ hf
  rintro ⟨⟨q, hq, hr⟩, -⟩
  rw [hs] at hr
  exact List.append_ne_nil_of_left_ne_nil hq _ hr.symm

theorem InStep.astray {J : Joint} (hs : s.cursor.rest ≠ []) (hs' : Doubtful s.cursor.rest)
    (ht : Doubtful t.cursor.rest) (hbefore : ¬ J.Before s.cursor.rest) (hf : t.fault = none) :
    InStep J keep s t :=
  .past (.astray hs hs' ht) hbefore hf

/-- At the seam the first scanner has no blank. -/
theorem blank?_atSeam {c : Cursor} (h : JoinedEnd old new) (hc : c.rest = old) :
    c.blank? keep = none := by
  cases h with
  | behind _ => exact Cursor.blank?_of_rest_nil keep hc
  | trigraph _ => exact blank?_of_settled keep (settled_of_isSolid (by rw [hc]; rfl))

/-- At the seam the second scanner skips the comment, or both are stuck. -/
theorem skip_atSeam (h : JoinedEnd old new) (hs : s.cursor.rest = old) (ht : t.cursor.rest = new)
    (hf : t.fault = none) : InStep (joinedEnds old new) keep s (t.skip keep) := by
  cases h with
  | behind hbody =>
    obtain ⟨hrest, hfault⟩ := Scanner.skip_lastComment keep ht hbody
    exact .atEnd hs hrest (hfault.trans hf)
  | trigraph hbody =>
    have hstuck : t.cursor.blank? keep = none :=
      blank?_of_settled keep (settled_of_isSolid (by rw [ht]; rfl))
    rw [Scanner.skip_of_none hstuck]
    refine .astray ?_ (by rw [hs]; rfl) (by rw [ht]; rfl) ?_ hf
    · rw [hs]
      exact List.cons_ne_nil _ _
    · rintro ⟨⟨q, hq, hr⟩, -⟩
      exact hq (List.append_left_eq_self.1 (hr.symm.trans hs))

/-- A slash at the end of the first text starts a comment in the second one. -/
theorem skip_slash (h : JoinedEnd old new) (hq : q ≠ []) (hs : s.cursor.rest = q ++ old)
    (ht : t.cursor.rest = q ++ new) (hslash : s.cursor.rest = [ch '/']) (hf : t.fault = none) :
    InStep (joinedEnds old new) keep s (t.skip keep) := by
  have hlength := congrArg List.length (hs.symm.trans hslash)
  have hpos := List.length_pos_iff.2 hq
  rw [List.length_append, List.length_singleton] at hlength
  cases h with
  | @behind body hbody =>
    obtain rfl : q = [ch '/'] := by rw [← hslash, hs, List.append_nil]
    have hbody' : (0x0a : UInt8) ∉ ch '/' :: body := by
      rw [List.mem_cons, not_or]
      exact ⟨by decide, hbody⟩
    have ht' : t.cursor.rest = ascii "//" ++ ch '/' :: body := ht
    obtain ⟨hrest, hfault⟩ := Scanner.skip_lastComment keep ht' hbody'
    refine .astray (by rw [hslash]; exact List.cons_ne_nil _ _) (by rw [hslash]; rfl)
      (by rw [hrest]; rfl) (fun hbefore => hbefore.2 hslash) (hfault.trans hf)
  | trigraph _ =>
    have htwo : (ascii "??").length = 2 := rfl
    omega

theorem blank?_slash {c : Cursor} (hc : c.rest = [ch '/']) : c.blank? keep = none := by
  rw [Cursor.blank?_of_comment?_none (by rw [hc]; rfl), hc]
  cases keep with
  | true => rfl
  | false => cases c.atLineStart <;> rfl

theorem atLineStart_pass {c : Cursor} {b : Blank} (hb : b ≠ .openComment) :
    (c.pass b).atLineStart = (c.advanceBy (b.width c.rest)).atLineStart := by
  cases b with
  | openComment => exact absurd rfl hb
  | _ => rfl

/-- Behind bytes that both texts share they still differ in their ends only, and a line starts in
both or in neither. -/
theorem advanceBy_joined {c d : Cursor} {n : Nat} (hc : c.rest = q ++ old) (hd : d.rest = q ++ new)
    (h₀ : 0 < n) (hn : n ≤ q.length) :
    (c.advanceBy n).rest = q.drop n ++ old ∧ (d.advanceBy n).rest = q.drop n ++ new ∧
      (q.drop n ≠ [] → (c.advanceBy n).atLineStart = (d.advanceBy n).atLineStart) := by
  have hrest : ∀ {e : Cursor} {k : Bytes}, e.rest = q ++ k →
      (e.advanceBy n).rest = q.drop n ++ k := by
    intro e k he
    rw [Cursor.rest_advanceBy, he, List.drop_append_of_le_length hn]
  refine ⟨hrest hc, hrest hd, fun hne => ?_⟩
  have hstart : ∀ {e : Cursor} {k : Bytes}, e.rest = q ++ k →
      (e.advanceBy n).atLineStart = (q.take n).reverse.head?.any (· == 0x0a) := by
    intro e k he
    have hle : n ≤ e.rest.length := by
      rw [he, List.length_append]
      omega
    have hempty : (q.drop n ++ k).isEmpty = false := by
      rw [List.isEmpty_eq_false_iff]
      exact List.append_ne_nil_of_left_ne_nil hne k
    rw [Cursor.atLineStart_advanceBy h₀ hle, he, List.take_append_of_le_length hn,
      List.drop_append_of_le_length hn, hempty, Bool.not_false, Bool.and_true]
  rw [hstart hc, hstart hd]

/-- Where the first scanner has nothing to skip, the second one has only the end of its text to
skip. -/
theorem skip_of_stopped (h : JoinedEnd old new) (hs : s.cursor.rest = q ++ old)
    (ht : t.cursor.rest = q ++ new)
    (hstart : q ≠ [] → s.cursor.atLineStart = t.cursor.atLineStart) (hf : t.fault = none)
    (hb : s.cursor.blank? keep = none) : InStep (joinedEnds old new) keep s (t.skip keep) := by
  by_cases hq : q = []
  · subst hq
    exact skip_atSeam h hs ht hf
  by_cases hslash : s.cursor.rest = [ch '/']
  · exact skip_slash h hq hs ht hslash hf
  have hpaired := blank?_joined h hs ht hq hslash (hstart hq) keep
  rw [hb] at hpaired
  cases hb' : t.cursor.blank? keep with
  | none =>
    rw [Scanner.skip_of_none hb']
    exact .near hq hs ht hslash hf
  | some b' =>
    rw [hb'] at hpaired
    cases hpaired with
    | second hmarkers hhash hopen hend =>
      obtain ⟨hrest, hfault⟩ := Scanner.skip_toEnd hb' hopen hend
      have hne : s.cursor.rest ≠ [] := by
        rw [hs]
        exact List.append_ne_nil_of_left_ne_nil hq old
      refine ⟨⟨fun hahead => absurd ⟨hmarkers.2, hhash⟩ hahead.2, fun _ => .astray hne ?_ ?_⟩,
        fun hkeep => absurd (hkeep.symm.trans hmarkers.1) (by decide), hfault.trans hf⟩
      · rw [Doubtful, hhash]
        rfl
      · rw [hrest]
        rfl

/-- **Blanks are skipped in step** up to the end of the last line. -/
theorem skip_joined (h : JoinedEnd old new) : ∀ {q : Bytes} {t : Scanner},
    s.cursor.rest = q ++ old → t.cursor.rest = q ++ new →
    (q ≠ [] → s.cursor.atLineStart = t.cursor.atLineStart) → t.fault = none →
    (s.skip keep).fault = none → InStep (joinedEnds old new) keep (s.skip keep) (t.skip keep) := by
  induction s using Scanner.skip_induction keep with
  | stop s hb =>
    intro q t hs ht hstart hf _
    rw [Scanner.skip_of_none hb]
    exact skip_of_stopped h hs ht hstart hf hb
  | pass s b hb ih =>
    intro q t hs ht hstart hf hfault
    have hq : q ≠ [] := by
      rintro rfl
      rw [blank?_atSeam h hs] at hb
      cases hb
    have hslash : s.cursor.rest ≠ [ch '/'] := fun hslash => by
      rw [blank?_slash hslash] at hb
      cases hb
    have hpaired := blank?_joined h hs ht hq hslash (hstart hq) keep
    have hbounds := Cursor.width_bounds_of_blank? hb
    rw [Scanner.skip_of_some hb] at hfault ⊢
    rw [hb] at hpaired
    cases hb' : t.cursor.blank? keep with
    | none =>
      rw [hb'] at hpaired
      cases hpaired
    | some b' =>
      rw [hb'] at hpaired
      cases hpaired with
      | within hopen hle hwidth =>
        obtain ⟨hs', ht', hstart'⟩ := advanceBy_joined hs ht hbounds.1 hle
        rw [Scanner.skip_of_some hb']
        refine ih (q := q.drop (b.width s.cursor.rest)) ?_ ?_ ?_
          ((Scanner.fault_pass_eq hopen).trans hf) hfault
        · rw [Scanner.cursor_pass, Cursor.rest_pass, ← Cursor.rest_advanceBy, hs']
        · rw [Scanner.cursor_pass, Cursor.rest_pass, hwidth, ← Cursor.rest_advanceBy, ht']
        · rw [Scanner.cursor_pass, Scanner.cursor_pass, atLineStart_pass hopen,
            atLineStart_pass hopen, hwidth]
          exact hstart'
      | toEnd hend hopen hend' =>
        have hnil : (s.pass b).cursor.rest = [] := by
          rw [Scanner.cursor_pass, Cursor.rest_pass, hend, List.drop_length]
        obtain ⟨hrest, hfault'⟩ := Scanner.skip_toEnd hb' hopen hend'
        rw [Scanner.skip_of_rest_nil keep hnil]
        exact .atEnd hnil hrest (hfault'.trans hf)
      | unclosed => exact absurd rfl (Scanner.fault_pass (Scanner.fault_of_skip hfault)).2

end Skip

/-! ### The seam -/

section Seam

variable {old new : Bytes} (h : JoinedEnd old new)

include h

/-- Behind some bytes of the common part. -/
theorem skip_joined_behind {s t : Scanner} {n : Nat} {keep : Bool}
    (hnear : (joinedEnds old new).Near .anywhere s.cursor t.cursor) (h₀ : 0 < n)
    (hn : old.length + n ≤ s.cursor.rest.length) (hf : t.fault = none)
    (hfault : ((s.advanceBy n).skip keep).fault = none) :
    InStep (joinedEnds old new) keep ((s.advanceBy n).skip keep) ((t.advanceBy n).skip keep) := by
  obtain ⟨q, -, hs, ht⟩ := hnear.rest
  have hs : s.cursor.rest = q ++ old := hs
  have ht : t.cursor.rest = q ++ new := ht
  have hle : n ≤ q.length := by
    rw [hs, List.length_append] at hn
    omega
  obtain ⟨hs', ht', hstart⟩ := advanceBy_joined hs ht h₀ hle
  exact skip_joined h hs' ht' hstart hf hfault

/-- **The seam in front of a comment that is joined to the last line.** -/
theorem exists_seam_joined :
    ∃ S : Seam .anywhere, S.toJoint = joinedEnds old new := by
  refine ⟨⟨joinedEnds old new, h.marks, ?_, h.length_le, .inl rfl, ?_, ?_⟩, rfl⟩
  · cases h <;> rfl
  · intro s t n hnear h₀ hn hf hfault
    have hstep := skip_joined_behind h hnear h₀ hn hf hfault
    exact ⟨hstep.meets, hstep.fault⟩
  · intro s t n hnear h₀ hn hf hfault
    have hstep := skip_joined_behind h hnear h₀ hn hf hfault
    exact ⟨hstep.before rfl, hstep.fault⟩

end Seam

end MiniC.Scan
