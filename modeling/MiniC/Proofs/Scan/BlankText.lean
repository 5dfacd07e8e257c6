import MiniC.Proofs.Scan.CommentText
import MiniC.Proofs.Scan.MarkerText
import MiniC.Proofs.Scan.Placing

/-!
# Blanks as texts

Blank text is white space, comments and line markers at the start of a line, one behind the other;
a block comment that is never closed may come last. `BlankRun c w d` says that such text `w`, without
an open comment, leads from the cursor `c` to `d`; newlines are counted on the way, and a marker sets
the position. `EndsOpen c w d` adds an open comment, which starts at `d`.

The scanner goes past a run of its own (`exists_blankRun`), and past any other run first
(`BlankRun.skipBlanks_eq`). So what it takes is the longest blank text at the cursor
(`skipBlanks_longest`).
-/

namespace MiniC.Scan

open Blank

/-! ### Blank text -/

/-- A line starts at the cursor: no byte or a newline stands before it. -/
def LineStart (c : Cursor) : Prop := c.before = [] ∨ c.before.head? = some 0x0a

/-- Blank text `w` leads from one cursor to another. -/
inductive BlankRun : Cursor → (w : Bytes) → Cursor → Prop
  | nil {c : Cursor} : BlankRun c [] c
  | space {c d : Cursor} {b : UInt8} {k v : Bytes} (hb : isSpace b = true) (hc : c.rest = b :: k)
      (others : BlankRun (c.advanceBy 1) v d) : BlankRun c ([b] ++ v) d
  | comment {c d : Cursor} {w k v : Bytes} (hw : Comment k w) (hc : c.rest = w ++ k)
      (others : BlankRun (c.advanceBy w.length) v d) : BlankRun c (w ++ v) d
  | marker {c d : Cursor} {m : Marker} {k v : Bytes} (hstart : LineStart c) (hk : LineEnd k)
      (hc : c.rest = m.text ++ k)
      (others : BlankRun { c.advanceBy m.text.length with position := m.position } v d) :
      BlankRun c (m.text ++ v) d

/-- The text is a block comment that is never closed. -/
def Unclosed (s : Bytes) : Prop := ∃ body, s = ascii "/*" ++ body ∧ ¬ ascii "*/" <:+: body

/-- The text `w` at the cursor is a run and an open comment, which starts at `d`. -/
def EndsOpen (c : Cursor) (w : Bytes) (d : Cursor) : Prop :=
  ∃ v, BlankRun c v d ∧ Unclosed d.rest ∧ w = v ++ d.rest

/-- The text at the cursor starts with the blank text `w`. -/
def BlankFront (c : Cursor) (w : Bytes) : Prop := ∃ d, BlankRun c w d ∨ EndsOpen c w d

namespace BlankRun

variable {c d : Cursor} {w : Bytes}

/-- A run goes over its text. -/
theorem between (h : BlankRun c w d) : c.Between w d := by
  induction h with
  | nil => exact ⟨rfl, rfl⟩
  | @space c d b k v _ hc _ ih =>
    have hspace : c.Between [b] (c.advanceBy 1) := Cursor.between_advanceBy hc
    exact hspace.trans ih
  | comment _ hc _ ih => exact (Cursor.between_advanceBy hc).trans ih
  | @marker c d m k v _ _ hc _ ih =>
    have hmarker : c.Between m.text { c.advanceBy m.text.length with position := m.position } :=
      ⟨(Cursor.between_advanceBy hc).rest, (Cursor.between_advanceBy hc).before⟩
    exact hmarker.trans ih

/-- White space is passed byte by byte. -/
theorem spaces {v k : Bytes} (hw : ∀ b ∈ w, isSpace b = true) (hc : c.rest = w ++ k)
    (others : BlankRun (c.advanceBy w.length) v d) : BlankRun c (w ++ v) d := by
  induction w generalizing c with
  | nil => exact others
  | cons b w ih =>
    have hrest : (c.advanceBy 1).rest = w ++ k := by rw [Cursor.rest_advanceBy, hc]; rfl
    exact .space (hw b List.mem_cons_self) hc
      (ih (fun x hx => hw x (List.mem_cons_of_mem b hx)) hrest others)

end BlankRun

/-! ### Blanks and blank text -/

theorem atLineStart_iff {c : Cursor} (h : c.rest ≠ []) : c.atLineStart = true ↔ LineStart c := by
  have hend : c.atEnd = false := by rw [Cursor.atEnd, List.isEmpty_eq_false_iff]; exact h
  cases hb : c.before with
  | nil => simp [Cursor.atLineStart, LineStart, hb]
  | cons b r => simp [Cursor.atLineStart, LineStart, hb, hend]

theorem closingLength?_eq_none_iff {s : Bytes} {taken : Nat} :
    closingLength? taken s = none ↔ ¬ ascii "*/" <:+: s := by
  constructor
  · rintro h ⟨front, k, rfl⟩
    induction front generalizing taken with
    | nil => cases h
    | cons b front ih =>
      obtain ⟨c, rest, hc⟩ : ∃ c rest, front ++ ascii "*/" ++ k = c :: rest :=
        List.exists_cons_of_ne_nil (by simp [ascii])
      rw [List.cons_append, List.cons_append, hc, closingLength?] at h
      split_ifs at h
      rw [← hc] at h
      exact ih h
  · intro h
    by_contra hsome
    obtain ⟨n, hn⟩ := Option.ne_none_iff_exists'.1 hsome
    obtain ⟨body, k, rfl, -, -⟩ := exists_mark_of_closingLength? hn
    exact h ⟨body, k, by rw [List.append_assoc]⟩

theorem comment?_eq_openComment_iff {s : Bytes} :
    comment? s = some .openComment ↔ Unclosed s := by
  constructor
  · intro h
    rcases comment?_cases h with ⟨_, _, hline⟩ | ⟨_, _, _, _, hblock⟩ | ⟨body, rfl, hnone, -⟩
    · cases hline
    · cases hblock
    · exact ⟨body, rfl, closingLength?_eq_none_iff.1 hnone⟩
  · rintro ⟨body, rfl, hbody⟩
    have hcomment : comment? (ascii "/*" ++ body) =
        some ((closingLength? 2 body).elim .openComment .blockComment) := rfl
    rw [hcomment, closingLength?_eq_none_iff.2 hbody]
    rfl

theorem blank?_of_marker {c : Cursor} {m : Marker} {k : Bytes} (hstart : LineStart c)
    (hk : LineEnd k) (hc : c.rest = m.text ++ k) :
    c.blank? false = some (.marker m.text.length m.position) := by
  have hcomment : comment? c.rest = none := by rw [hc]; exact comment?_of_ne _ (by decide)
  have hspaces : spaces? c.rest = none := by rw [hc]; rfl
  have hne : c.rest ≠ [] := by rw [hc]; exact List.cons_ne_nil _ _
  have hline : c.atLineStart = true := (atLineStart_iff hne).2 hstart
  rw [Cursor.blank?_of_comment?_none hcomment, hspaces, hline, hc, m.marker?_text hk]
  rfl

/-- Where no blank is found there is no white space, no comment and no marker of a line. -/
theorem front_of_blank?_none {c : Cursor} (h : c.blank? false = none) :
    c.rest.head?.any isSpace = false ∧ ¬ ascii "//" <+: c.rest ∧ ¬ ascii "/*" <+: c.rest ∧
      (LineStart c → ∀ (m : Marker) (k : Bytes), LineEnd k → c.rest ≠ m.text ++ k) := by
  have hmarker : LineStart c → ∀ (m : Marker) (k : Bytes), LineEnd k → c.rest ≠ m.text ++ k := by
    intro hstart m k hk hc
    rw [blank?_of_marker hstart hk hc] at h
    cases h
  have hcomment := Cursor.comment?_of_blank?_none h
  refine ⟨?_, ?_, ?_, hmarker⟩
  · cases hr : c.rest with
    | nil => rfl
    | cons b r =>
      cases hb : isSpace b with
      | false => exact hb
      | true =>
        rw [Cursor.blank?_of_isSpace hr hb] at h
        cases h
  · rintro ⟨r, hr⟩
    rw [← hr] at hcomment
    cases hcomment
  · rintro ⟨r, hr⟩
    rw [← hr] at hcomment
    cases hcomment

/-! ### Skipping blank text -/

/-- **A run may be passed beforehand.** -/
theorem BlankRun.skipBlanks_eq {c d : Cursor} {w : Bytes} (h : BlankRun c w d)
    (fault : Option SyntaxError) :
    (⟨c, fault⟩ : Scanner).skipBlanks = (⟨d, fault⟩ : Scanner).skipBlanks := by
  induction h with
  | nil => rfl
  | space hb hc _ ih =>
    rw [← ih]
    exact (Scanner.skip_advanceBy_one (s := ⟨_, fault⟩) hc hb).symm
  | comment hw hc _ ih =>
    rw [← ih]
    exact Scanner.skip_comment (s := ⟨_, fault⟩) false hw hc
  | marker hstart hk hc _ ih =>
    rw [← ih]
    exact Scanner.skip_of_some (s := ⟨_, fault⟩) (blank?_of_marker hstart hk hc)

namespace Scanner

theorem blank?_skip (keep : Bool) (s : Scanner) : (s.skip keep).cursor.blank? keep = none := by
  induction s using skip_induction keep with
  | stop s hb => rw [skip_of_none hb]; exact hb
  | pass s b hb ih => rw [skip_of_some hb]; exact ih

/-- An open comment is passed to the end of the text. -/
theorem skipBlanks_of_unclosed {s : Scanner} (h : Unclosed s.cursor.rest) :
    s.skipBlanks = s.pass .openComment := by
  have hblank : s.cursor.blank? false = some .openComment :=
    Cursor.blank?_of_comment? (comment?_eq_openComment_iff.2 h) false
  rw [skipBlanks, skip_of_some hblank,
    skip_of_none (Cursor.blank?_of_rest_nil false s.rest_pass_openComment)]

theorem fault_pass_openComment (s : Scanner) : (s.pass .openComment).fault =
    some (s.fault.getD ⟨s.cursor.position, ascii "*/", ascii "EOF"⟩) := by
  rw [pass, faultAfter]
  cases s.fault <;> rfl

/-- A blank is an open comment or the beginning of a run. -/
theorem cases_blank? {s : Scanner} {b : Blank} (h : s.cursor.blank? false = some b) :
    b = .openComment ∧ Unclosed s.cursor.rest ∨
      b ≠ .openComment ∧ ∃ w, ∀ {v : Bytes} {d : Cursor},
        BlankRun (s.cursor.pass b) v d → BlankRun s.cursor (w ++ v) d := by
  rcases Cursor.blank?_cases h with hcomment | ⟨-, hspaces | ⟨hline, hmarker⟩⟩
  · by_cases hb : b = .openComment
    · subst hb
      exact .inl ⟨rfl, comment?_eq_openComment_iff.1 hcomment⟩
    · obtain ⟨w, k, hc, hw, hwidth⟩ := comment_of_comment? hcomment hb
      refine .inr ⟨hb, w, fun hrun => .comment hw hc ?_⟩
      rcases hwidth with rfl | rfl <;> exact hrun
  · obtain ⟨-, rfl⟩ := spaces?_eq_some hspaces
    refine .inr ⟨(fun h => by cases h), s.cursor.rest.takeWhile isSpace, fun hrun => ?_⟩
    exact .spaces (fun b hb => List.mem_takeWhile_imp hb) List.takeWhile_append_dropWhile.symm hrun
  · obtain ⟨m, k, hc, hk, rfl⟩ := exists_marker_of_marker? hmarker
    have hne : s.cursor.rest ≠ [] := by rw [hc]; exact List.cons_ne_nil _ _
    refine .inr ⟨(fun h => by cases h), m.text, fun hrun => ?_⟩
    exact .marker ((atLineStart_iff hne).1 hline) hk hc hrun

/-- **Skipping takes a run, and an open comment behind it.** -/
theorem exists_blankRun (s : Scanner) : ∃ w d,
    BlankRun s.cursor w d ∧ s.skipBlanks = ⟨d, s.fault⟩ ∨ EndsOpen s.cursor w d := by
  induction s using skip_induction false with
  | stop s hb => exact ⟨[], s.cursor, .inl ⟨.nil, skip_of_none hb⟩⟩
  | pass s b hb ih =>
    rcases cases_blank? hb with ⟨rfl, hunclosed⟩ | ⟨hclosed, w, hw⟩
    · exact ⟨s.cursor.rest, s.cursor, .inr ⟨[], .nil, hunclosed, rfl⟩⟩
    · obtain ⟨u, d, ⟨hrun, hskip⟩ | ⟨v, hrun, hunclosed, rfl⟩⟩ := ih
      · refine ⟨w ++ u, d, .inl ⟨hw hrun, ?_⟩⟩
        rw [fault_pass_eq hclosed] at hskip
        exact (skip_of_some hb).trans hskip
      · refine ⟨w ++ (v ++ d.rest), d, .inr ⟨w ++ v, hw hrun, hunclosed, ?_⟩⟩
        rw [List.append_assoc]

theorem skipBlanks_of_endsOpen {s : Scanner} {w : Bytes} {d : Cursor} (h : EndsOpen s.cursor w d) :
    s.skipBlanks = (⟨d, s.fault⟩ : Scanner).pass .openComment := by
  obtain ⟨v, hrun, hunclosed, -⟩ := h
  exact (hrun.skipBlanks_eq s.fault).trans (skipBlanks_of_unclosed hunclosed)

/-- What is skipped stands between the two cursors. -/
theorem exists_skipped (s : Scanner) : ∃ w d, s.cursor.Between w s.skipBlanks.cursor ∧
    (BlankRun s.cursor w d ∧ s.skipBlanks.fault = s.fault ∨ EndsOpen s.cursor w d) := by
  obtain ⟨w, d, ⟨hrun, hskip⟩ | hopen⟩ := s.exists_blankRun
  · rw [hskip]
    exact ⟨w, d, hrun.between, .inl ⟨hrun, rfl⟩⟩
  · refine ⟨w, d, ?_, .inr hopen⟩
    rw [skipBlanks_of_endsOpen hopen]
    obtain ⟨v, hrun, -, rfl⟩ := hopen
    exact hrun.between.trans (Cursor.between_advanceBy (List.append_nil d.rest).symm)

/-- **No other blank text is longer.** -/
theorem prefix_of_blankFront {s : Scanner} {v w : Bytes} (hv : BlankFront s.cursor v)
    (hw : s.cursor.Between w s.skipBlanks.cursor) : v <+: w := by
  obtain ⟨d, hrun | hopen⟩ := hv
  · -- behind the run the scanner goes on, and the two parts make up all that it takes
    have hskip : s.skipBlanks = (⟨d, s.fault⟩ : Scanner).skipBlanks := hrun.skipBlanks_eq s.fault
    obtain ⟨u, -, hu, -⟩ := (⟨d, s.fault⟩ : Scanner).exists_skipped
    rw [← hskip] at hu
    refine ⟨u, (List.append_left_inj s.skipBlanks.cursor.rest).1 ?_⟩
    rw [← hw.rest, (hrun.between.trans hu).rest]
  · have hend : s.skipBlanks.cursor.rest = [] := by
      rw [skipBlanks_of_endsOpen hopen, rest_pass_openComment]
    obtain ⟨v, hrun, -, rfl⟩ := hopen
    have hall : v ++ d.rest = w := by rw [← hrun.between.rest, hw.rest, hend, List.append_nil]
    exact ⟨[], by rw [List.append_nil, hall]⟩

end Scanner

/-- **Exactly the longest blank text is skipped.** Wherever the scanner stands, it goes past a text
`w` of white space, comments and line markers at line starts, which may end in a block comment that
is never closed, and every other such text at the cursor is a prefix of `w`. Behind it there is no
white space, no beginning of a comment and no line marker at the start of a line, so that skipping
again changes nothing. A fault that was there stays. A new one comes from an open comment at the end
of `w` only, which it reports where that comment starts; the text is used up then. -/
theorem skipBlanks_longest (s : Scanner) :
    let s' := s.skipBlanks
    ∃ w, s.cursor.rest = w ++ s'.cursor.rest ∧ s'.cursor.text = s.cursor.text ∧
      s'.cursor.index = s.cursor.index + w.length ∧
      BlankFront s.cursor w ∧ (∀ v, BlankFront s.cursor v → v <+: w) ∧
      (s'.cursor.rest.head?.any isSpace = false ∧
        ¬ ascii "//" <+: s'.cursor.rest ∧ ¬ ascii "/*" <+: s'.cursor.rest ∧
        (LineStart s'.cursor →
          ∀ (m : Marker) (k : Bytes), LineEnd k → s'.cursor.rest ≠ m.text ++ k)) ∧
      s'.skipBlanks = s' ∧
      (s'.fault.isSome = true ↔ s.fault.isSome = true ∨ ∃ d, EndsOpen s.cursor w d) ∧
      (∀ e, s.fault = some e → s'.fault = some e) ∧
      ∀ e, s.fault = none → s'.fault = some e → s'.cursor.atEnd = true ∧
        ∃ d, EndsOpen s.cursor w d ∧ e = ⟨d.position, ascii "*/", ascii "EOF"⟩ := by
  intro s'
  obtain ⟨w, d, hbetween, hw⟩ := s.exists_skipped
  have hfront : BlankFront s.cursor w := ⟨d, hw.imp_left And.left⟩
  have hstop : s'.cursor.blank? false = none := s.blank?_skip false
  have hopened : ∀ {d}, EndsOpen s.cursor w d → s'.cursor.rest = [] ∧
      s'.fault = some (s.fault.getD ⟨d.position, ascii "*/", ascii "EOF"⟩) := by
    intro d hopen
    change s.skipBlanks.cursor.rest = [] ∧ s.skipBlanks.fault = _
    rw [Scanner.skipBlanks_of_endsOpen hopen]
    exact ⟨Scanner.rest_pass_openComment _, Scanner.fault_pass_openComment _⟩
  have hclosed : s'.fault = s.fault ∨ EndsOpen s.cursor w d := hw.imp_left And.right
  refine ⟨w, hbetween.rest, Cursor.text_skip false s, hbetween.index, hfront,
    fun v hv => Scanner.prefix_of_blankFront hv hbetween, front_of_blank?_none hstop,
    Scanner.skip_of_none hstop, ⟨fun h => ?_, ?_⟩, fun e he => ?_, fun e hnone hsome => ?_⟩
  · rcases hclosed with hfault | hopen
    · exact .inl (by rw [← hfault]; exact h)
    · exact .inr ⟨d, hopen⟩
  · rintro (h | ⟨d, hopen⟩)
    · rcases hclosed with hfault | hopen
      · rw [hfault]
        exact h
      · rw [(hopened hopen).2]
        rfl
    · rw [(hopened hopen).2]
      rfl
  · rcases hclosed with hfault | hopen
    · exact hfault.trans he
    · rw [(hopened hopen).2, he]
      rfl
  · rcases hclosed with hfault | hopen
    · rw [hfault, hnone] at hsome
      cases hsome
    · obtain ⟨hend, hfault⟩ := hopened hopen
      rw [hfault, hnone] at hsome
      exact ⟨List.isEmpty_iff.2 hend, d, hopen, (Option.some.inj hsome).symm⟩

/-- Behind a marker an open comment is reported in the file that the marker names. -/
theorem skipBlanks_longest_open :
    let s : Scanner := ⟨Cursor.ofText (ascii "# 7 \"f.c\" 2\n /*/") (ascii "a.c"), none⟩
    s.skipBlanks.cursor.atEnd = true ∧
      ∃ w d, EndsOpen s.cursor w d ∧ d.position = ⟨ascii "f.c", 7⟩ := by
  intro s
  have hfault : s.skipBlanks.fault =
      some ⟨⟨ascii "f.c", 7⟩, ascii "*/", ascii "EOF"⟩ := by decide +kernel
  obtain ⟨w, -, -, -, -, -, -, -, -, -, hnew⟩ := skipBlanks_longest s
  obtain ⟨hend, d, hopen, he⟩ := hnew _ rfl hfault
  exact ⟨hend, w, d, hopen, congrArg SyntaxError.position he.symm⟩

end MiniC.Scan
