import Mathlib.Data.List.Induction
import MiniC.Proofs.Source.Splicing
import MiniC.Proofs.Source.Trigraph

/-!
# A line behind a source

The logical lines of a source when one more line is put behind it. The bytes of that line are
`isInert`: they take part in no line end, splice or trigraph, so the line stays as it is
(`ofSource_join`). What it does to the lines in front of it depends on how the source ends:

* the line is a logical line of its own, and behind a carriage return it takes the place of an
  empty one, or
* the source ends with a splice, and the line is joined to the last logical line

(`ofSource_concat`). A joined line may still end a trigraph: behind two question marks its first
slash is read as a backslash together with them. `JoinedEnd` has the two ways in which a line ends
when `//…` is joined to it (`Trigraph.exists_joinedEnd`).
-/

namespace MiniC

/-- The byte is no line end, no backslash and no question mark. -/
def isInert (b : UInt8) : Bool := b != 0x0a && b != 0x0d && b != ch '\\' && b != ch '?'

theorem newline_notMem_of_isInert {s : Bytes} (h : ∀ b ∈ s, isInert b = true) :
    (0x0a : UInt8) ∉ s := fun hmem => absurd (h _ hmem) (by decide)

/-- Two slashes in front of inert bytes are inert. -/
theorem isInert_comment {c : Bytes} (h : ∀ b ∈ c, isInert b = true) :
    ∀ b ∈ ascii "//" ++ c, isInert b = true := by
  have hslashes : (ascii "//").all isInert = true := by decide
  intro b hb
  rcases List.mem_append.1 hb with hb | hb
  · exact List.all_eq_true.1 hslashes b hb
  · exact h b hb

/-! ### Trigraphs -/

/-- What the last line ends with before and after `//…` is joined to it. Behind two question marks
the first slash belongs to a trigraph and is read as a backslash together with them. -/
inductive JoinedEnd : (old new : Bytes) → Prop
  | behind {body : Bytes} (hbody : (0x0a : UInt8) ∉ body) : JoinedEnd [] (ascii "//" ++ body)
  | trigraph {body : Bytes} (hbody : (0x0a : UInt8) ∉ body) :
    JoinedEnd (ascii "??") (ascii "\\/" ++ body)

namespace JoinedEnd

variable {old new : Bytes}

theorem marks (h : JoinedEnd old new) : ∀ b ∈ old, b = ch '?' := by
  cases h with
  | behind _ =>
    intro b hb
    cases hb
  | trigraph _ => exact fun b hb => List.eq_of_mem_replicate (n := 2) hb

theorem newline_notMem_new (h : JoinedEnd old new) : (0x0a : UInt8) ∉ new := by
  cases h with
  | behind hbody =>
    rw [List.mem_append, not_or]
    exact ⟨by decide, hbody⟩
  | trigraph hbody =>
    rw [List.mem_append, not_or]
    exact ⟨by decide, hbody⟩

theorem newline_notMem_old (h : JoinedEnd old new) : (0x0a : UInt8) ∉ old := fun hmem =>
  absurd (h.marks _ hmem) (by decide)

theorem length_le (h : JoinedEnd old new) : old.length ≤ new.length := by
  cases h with
  | behind _ => exact Nat.zero_le _
  | trigraph _ =>
    rw [List.length_append]
    exact Nat.le_add_right 2 _

end JoinedEnd

/-- What does not end with a question mark ends in front of the question marks. -/
theorem exists_before_marks {r old w k : Bytes} (hold : ∀ b ∈ old, b = ch '?')
    (hlast : w.getLast? ≠ some (ch '?')) (h : r ++ old = w ++ k) :
    ∃ c, r = w ++ c ∧ k = c ++ old := by
  rcases List.append_eq_append_iff.1 h with ⟨a, rfl, hk⟩ | ⟨c, hr, hk⟩
  · rcases List.eq_nil_or_concat a with rfl | ⟨a, b, rfl⟩
    · exact ⟨[], by simp, by simpa using hk.symm⟩
    · have hb : b ∈ old := by
        rw [hk]
        simp
      rw [List.concat_eq_append, ← List.append_assoc, List.getLast?_concat, hold b hb] at hlast
      exact absurd rfl hlast
  · exact ⟨c, hr, hk⟩

namespace Trigraph

theorem substitute_of_isInert {s : Bytes} (h : ∀ b ∈ s, isInert b = true) : substitute s = s := by
  induction s with
  | nil => rfl
  | cons b s ih =>
    obtain ⟨hb, hs⟩ := List.forall_mem_cons.1 h
    have hmark : b ≠ ch '?' := by
      rintro rfl
      revert hb
      decide
    rw [substitute_keep (atFront?_of_ne hmark), ih hs]

theorem replace_of_isInert {s : Bytes} (h : ∀ b ∈ s, isInert b = true) : replace s = s := by
  rw [replace_eq_substitute, substitute_of_isInert h]

/-- A byte that stays also does so in front of more text, but for two question marks at the end of
the text that a slash follows. -/
theorem atFront?_append_slash {b : UInt8} {rest k : Bytes} (h : atFront? (b :: rest) = none) :
    atFront? (b :: rest ++ ch '/' :: k) = none ∨ b :: rest = ascii "??" := by
  cases hfront : atFront? (b :: rest ++ ch '/' :: k) with
  | none => exact .inl rfl
  | some image =>
    right
    obtain ⟨c, more, heq, himage⟩ := exists_of_atFront? hfront
    rcases rest with _ | ⟨d, _ | ⟨e, rest⟩⟩
    · rw [List.singleton_append, List.cons.injEq, List.cons.injEq] at heq
      exact absurd heq.2.1 (by decide)
    · rw [List.cons_append, List.singleton_append, List.cons.injEq, List.cons.injEq] at heq
      rw [heq.1, heq.2.1]
      rfl
    · simp only [List.cons_append, List.cons.injEq] at heq
      obtain ⟨rfl, rfl, rfl, -⟩ := heq
      rw [atFront?_trigraph himage] at h
      cases h

/-- **How a line ends when a comment is joined to it.** -/
theorem exists_joinedEnd {c : Bytes} (hc : ∀ b ∈ c, isInert b = true) (line : Bytes) :
    ∃ front old new, replace line = front ++ old ∧
      replace (line ++ (ascii "//" ++ c)) = front ++ new ∧ JoinedEnd old new := by
  simp only [replace_eq_substitute]
  induction line using scan_induction with
  | nil =>
    refine ⟨[], [], _, rfl, ?_, .behind (newline_notMem_of_isInert hc)⟩
    exact substitute_of_isInert (isInert_comment hc)
  | trigraph b image rest h ih =>
    obtain ⟨front, old, new, hold, hnew, hend⟩ := ih
    refine ⟨image :: front, old, new, ?_, ?_, hend⟩
    · rw [substitute_trigraph h, hold, List.cons_append]
    · rw [List.cons_append, List.cons_append, List.cons_append, substitute_trigraph h, hnew,
        List.cons_append]
  | keep b rest h ih =>
    rcases atFront?_append_slash (k := ch '/' :: c) h with hfront | hmarks
    · obtain ⟨front, old, new, hold, hnew, hend⟩ := ih
      refine ⟨b :: front, old, new, ?_, ?_, hend⟩
      · rw [substitute_keep h, hold, List.cons_append]
      · have hkeep := substitute_keep hfront
        exact hkeep.trans (congrArg (b :: ·) hnew)
    · -- the slash ends a trigraph
      have hslash : image? (ch '/') = some (ch '\\') := rfl
      have hrest : ∀ b ∈ ch '/' :: c, isInert b = true :=
        List.forall_mem_cons.2 ⟨by decide, hc⟩
      rw [hmarks]
      refine ⟨[], _, _, rfl, ?_, .trigraph (newline_notMem_of_isInert hc)⟩
      calc substitute (ascii "??" ++ (ascii "//" ++ c)) =
            ch '\\' :: substitute (ch '/' :: c) := substitute_trigraph hslash
        _ = ascii "\\/" ++ c := by rw [substitute_of_isInert hrest]; rfl

end Trigraph

namespace LogicalLine

/-! ### Lines of inert bytes -/

theorem isInLine_of_isInert {b : UInt8} (h : isInert b = true) : isInLine b = true := by
  simp only [isInert, Bool.and_eq_true, bne_iff_ne] at h
  exact isInLine_iff.2 h.1.1

theorem foldl_step {line : Bytes} (h : ∀ b ∈ line, isInert b = true) (done : List Bytes)
    (current : Bytes) : line.foldl Cutting.step ⟨done, current, false⟩ =
      ⟨done, line.reverse ++ current, false⟩ :=
  foldl_step_line (fun b hb => isInLine_of_isInert (h b hb)) done current

theorem foldl_step_join : ∀ (line : Bytes) (lines : List Bytes),
    (∀ l ∈ line :: lines, ∀ b ∈ l, isInert b = true) → ∀ done : List Bytes,
    (((Bytes.join [0x0a] (line :: lines)).foldl Cutting.step ⟨done, [], false⟩).close false).done =
      (line :: lines).reverse ++ done
  | line, [], h, done => by
    rw [Bytes.join, List.intercalate_singleton, foldl_step (h line List.mem_cons_self)]
    simp [Cutting.close]
  | line, next :: lines, h, done => by
    have hstep : Cutting.step ⟨done, line.reverse ++ [], false⟩ 0x0a =
        ⟨line :: done, [], false⟩ := by
      simp [Cutting.step, Cutting.close]
    have ih := foldl_step_join next lines (fun l hl => h l (List.mem_cons_of_mem _ hl))
      (line :: done)
    rw [Bytes.join] at ih
    rw [Bytes.join, List.intercalate_cons_cons, List.append_assoc, List.foldl_append,
      foldl_step (h line List.mem_cons_self), List.singleton_append, List.foldl_cons, hstep, ih]
    simp

theorem foldr_splice : ∀ {lines : List Bytes}, (∀ l ∈ lines, ∀ b ∈ l, isInert b = true) →
    lines.foldr splice [] = lines
  | [], _ => rfl
  | line :: lines, h => by
    have hlast : spliced? line = none := by
      rw [spliced?, if_neg]
      intro hl
      have hb := h line List.mem_cons_self _ (List.mem_of_getLast? hl)
      revert hb
      decide
    rw [List.foldr_cons, foldr_splice fun l hl => h l (List.mem_cons_of_mem _ hl)]
    exact splice_of_none hlast lines

/-- **The logical lines of inert lines are the lines.** -/
theorem ofSource_join {lines : List Bytes} (hne : lines ≠ [])
    (h : ∀ l ∈ lines, ∀ b ∈ l, isInert b = true) :
    ofSource (Bytes.join [0x0a] lines) = lines := by
  have hphys : physical (Bytes.join [0x0a] lines) = lines := by
    cases lines with
    | nil => exact absurd rfl hne
    | cons line lines => rw [physical, foldl_step_join line lines h]; simp
  rw [ofSource, hphys, foldr_splice h]
  calc lines.map Trigraph.replace = lines.map id :=
        List.map_congr_left fun l hl => Trigraph.replace_of_isInert (h l hl)
    _ = lines := List.map_id lines

theorem newline_notMem_ofSource (s : Bytes) : ∀ line ∈ ofSource s, (0x0a : UInt8) ∉ line :=
  fun line hline hmem => (isInLine_iff.1 (isInLine_of_mem_ofSource s line hline _ hmem)).1 rfl

/-! ### The physical lines in front -/

/-- Carriage returns are remembered up to the next byte. -/
theorem afterReturn_foldl (s : Bytes) :
    (s.foldl Cutting.step ⟨[], [], false⟩).afterReturn = true ↔ s.getLast? = some 0x0d := by
  induction s using List.reverseRecOn with
  | nil => simp
  | append_singleton s b ih =>
    rw [List.foldl_append, List.foldl_cons, List.foldl_nil, List.getLast?_concat]
    generalize s.foldl Cutting.step ⟨[], [], false⟩ = c at ih
    unfold Cutting.step Cutting.close
    split_ifs with hr hn ha
    · simp [hr]
    · simp [hn]
    · simp [hn]
    · simp [hr]

/-- Right behind a line end the current line is empty. -/
theorem current_foldl (s : Bytes) (h : s.getLast? = some 0x0d) :
    (s.foldl Cutting.step ⟨[], [], false⟩).current = [] := by
  obtain ⟨front, rfl⟩ := List.getLast?_eq_some_iff.1 h
  rw [List.foldl_append]
  rfl

/-- The current line ends with the last byte. -/
theorem getLast?_of_current {s : Bytes} {b : UInt8}
    (h : (s.foldl Cutting.step ⟨[], [], false⟩).current.head? = some b) : s.getLast? = some b := by
  induction s using List.reverseRecOn with
  | nil => cases h
  | append_singleton s x _ =>
    have hcurrent := current_foldl s
    have hreturn := afterReturn_foldl s
    rw [List.foldl_append, List.foldl_cons, List.foldl_nil] at h
    generalize s.foldl Cutting.step ⟨[], [], false⟩ = c at h hcurrent hreturn
    unfold Cutting.step Cutting.close at h
    split_ifs at h with hr hn ha
    · cases h
    · rw [hcurrent (hreturn.1 ha)] at h
      cases h
    · cases h
    · rw [List.getLast?_concat]
      exact h

theorem physical_eq (s : Bytes) : physical s =
    (s.foldl Cutting.step ⟨[], [], false⟩).done.reverse ++
      [(s.foldl Cutting.step ⟨[], [], false⟩).current.reverse] := by
  simp [physical, Cutting.close]

/-- The physical lines in front of a line that is put behind the source: behind a carriage return
the newline belongs to the same line end. -/
def ended (s : Bytes) : List Bytes :=
  if s.getLast? = some 0x0d then (physical s).dropLast else physical s

theorem physical_concat {line : Bytes} (h : ∀ b ∈ line, isInert b = true) (s : Bytes) :
    physical (s ++ 0x0a :: line) = ended s ++ [line] := by
  have hcurrent := current_foldl s
  have hreturn := afterReturn_foldl s
  rw [ended, physical_eq, physical_eq, List.foldl_append, List.foldl_cons]
  generalize s.foldl Cutting.step ⟨[], [], false⟩ = c at hcurrent hreturn
  obtain ⟨done, current, afterReturn⟩ := c
  by_cases hr : s.getLast? = some 0x0d
  · obtain rfl : afterReturn = true := hreturn.2 hr
    obtain rfl : current = [] := hcurrent hr
    have hstep : Cutting.step ⟨done, [], true⟩ 0x0a = ⟨done, [], false⟩ := rfl
    rw [hstep, foldl_step h, if_pos hr]
    simp
  · obtain rfl : afterReturn = false := by simpa using mt hreturn.1 hr
    have hstep : Cutting.step ⟨done, current, false⟩ 0x0a = ⟨current.reverse :: done, [], false⟩ :=
      rfl
    rw [hstep, foldl_step h, if_neg hr]
    simp

/-- The source does not end with a splice, so a new line starts behind it. -/
structure Unspliced (s : Bytes) : Prop where
  backslash : ¬ [ch '\\'] <:+ s
  beforeReturn : ¬ [ch '\\', 0x0d] <:+ s

theorem getLast?_ne_of_not_suffix {s : Bytes} {b : UInt8} (h : ¬ [b] <:+ s) :
    s.getLast? ≠ some b := by
  intro hlast
  obtain ⟨front, rfl⟩ := List.getLast?_eq_some_iff.1 hlast
  exact h (List.suffix_append front [b])

theorem spliced?_current {s : Bytes} (h : ¬ [ch '\\'] <:+ s) :
    spliced? (s.foldl Cutting.step ⟨[], [], false⟩).current.reverse = none := by
  rw [spliced?, if_neg]
  rw [List.getLast?_reverse]
  exact fun hlast => getLast?_ne_of_not_suffix h (getLast?_of_current hlast)

/-- The last physical line in front, and the physical lines of the source alone. -/
theorem exists_ended (s : Bytes) : ∃ front last, ended s = front ++ [last] ∧
    (physical s = ended s ∨ physical s = ended s ++ [[]]) ∧
    (Unspliced s → spliced? last = none) := by
  by_cases hr : s.getLast? = some 0x0d
  · obtain ⟨s, rfl⟩ := List.getLast?_eq_some_iff.1 hr
    refine ⟨(s.foldl Cutting.step ⟨[], [], false⟩).done.reverse, _, ?_, .inr ?_,
      fun h => spliced?_current (s := s) fun hsuffix => ?_⟩
    · rw [ended, if_pos hr, physical_eq, List.dropLast_concat, List.foldl_append, List.foldl_cons,
        List.foldl_nil]
      simp [Cutting.step, Cutting.close]
    · rw [ended, if_pos hr, physical_eq, current_foldl _ hr]
      simp
    · obtain ⟨front, rfl⟩ := hsuffix
      exact h.beforeReturn ⟨front, by simp⟩
  · refine ⟨(s.foldl Cutting.step ⟨[], [], false⟩).done.reverse, _, ?_, .inl ?_,
      fun h => spliced?_current h.backslash⟩
    · rw [ended, if_neg hr, physical_eq]
    · rw [ended, if_neg hr]

/-! ### Splicing -/

/-- Lines in front of a last one are spliced without a look at it. -/
theorem exists_foldr_splice (lines : List Bytes) : ∃ front start, ∀ last,
    lines.foldr splice [last] = front ++ [start ++ last] := by
  induction lines with
  | nil => exact ⟨[], [], fun last => rfl⟩
  | cons line lines ih =>
    obtain ⟨front, start, hlines⟩ := ih
    cases hs : spliced? line with
    | none =>
      refine ⟨line :: front, start, fun last => ?_⟩
      rw [List.foldr_cons, hlines, splice_of_none hs, List.cons_append]
    | some body =>
      cases front with
      | nil =>
        refine ⟨[], body ++ start, fun last => ?_⟩
        rw [List.foldr_cons, hlines, List.nil_append, splice_of_some hs, List.append_assoc]
        rfl
      | cons next front =>
        refine ⟨(body ++ next) :: front, start, fun last => ?_⟩
        rw [List.foldr_cons, hlines, List.cons_append, splice_of_some hs, List.cons_append]

theorem foldr_splice_concat (last : Bytes) : ∀ (lines : List Bytes) {after : List Bytes},
    after ≠ [] → lines.foldr splice (after ++ [last]) = lines.foldr splice after ++ [last] ∧
      lines.foldr splice after ≠ []
  | [], after, h => ⟨rfl, h⟩
  | line :: lines, after, h => by
    obtain ⟨heq, hne⟩ := foldr_splice_concat last lines h
    obtain ⟨next, more, hnext⟩ := List.exists_cons_of_ne_nil hne
    rw [List.foldr_cons, List.foldr_cons, heq, hnext, List.cons_append]
    unfold splice
    cases spliced? line with
    | none => exact ⟨rfl, List.cons_ne_nil _ _⟩
    | some body => exact ⟨rfl, List.cons_ne_nil _ _⟩

/-- A line is put behind lines of which the last joins nothing. -/
theorem foldr_splice_alone {last next : Bytes} (hlast : spliced? last = none)
    (hnext : ∀ b ∈ next, isInert b = true) (lines : List Bytes) :
    (lines ++ [last] ++ [next]).foldr splice [] = (lines ++ [last]).foldr splice [] ++ [next] ∧
      (lines ++ [last]).foldr splice [] ≠ [] := by
  have hone : [next].foldr splice [] = [next] := foldr_splice (by simpa using hnext)
  have htwo : [last].foldr splice [next] = [last] ++ [next] := splice_of_none hlast [next]
  have hend : [last].foldr splice [] = [last] := splice_of_none hlast []
  rw [List.foldr_append, List.foldr_append, List.foldr_append, hone, htwo, hend]
  exact foldr_splice_concat next lines (List.cons_ne_nil last [])

/-- A line is put behind lines of which the last is spliced with it. -/
theorem exists_foldr_splice_joined {last body : Bytes} (hlast : spliced? last = some body)
    (lines : List Bytes) : ∃ front start, (lines ++ [last]).foldr splice [] = front ++ [start] ∧
      ∀ next, (∀ b ∈ next, isInert b = true) →
        (lines ++ [last] ++ [next]).foldr splice [] = front ++ [start ++ next] := by
  obtain ⟨front, start, hfront⟩ := exists_foldr_splice lines
  refine ⟨front, start ++ body, ?_, fun next hnext => ?_⟩
  · have hend : [last].foldr splice [] = [body] := by
      simp only [List.foldr_cons, List.foldr_nil, splice, hlast]
    rw [List.foldr_append, hend, hfront]
  · have hone : [next].foldr splice [] = [next] := foldr_splice (by simpa using hnext)
    have htwo : [last].foldr splice [next] = [body ++ next] := splice_of_some hlast next []
    rw [List.foldr_append, List.foldr_append, hone, htwo, hfront, List.append_assoc]

/-- A line behind the source is a line of its own. -/
structure StandsAlone (s line : Bytes) (front : List Bytes) : Prop where
  nonempty : front ≠ []
  before : ofSource s = front ∨ ofSource s = front ++ [[]]
  after : ofSource (s ++ 0x0a :: line) = front ++ [line]

/-- A line behind the source belongs to its last line. -/
structure IsJoined (s line : Bytes) (front : List Bytes) (last : Bytes) : Prop where
  before : ofSource s = front ++ [Trigraph.replace last]
  after : ofSource (s ++ 0x0a :: line) = front ++ [Trigraph.replace (last ++ line)]

/-- **A line behind a source is a logical line of its own,** unless the source ends with a splice.
Behind a carriage return it takes the place of an empty line. Behind a splice it is joined to the
last line. -/
theorem ofSource_concat {line : Bytes} (h : ∀ b ∈ line, isInert b = true) (s : Bytes) :
    (∃ front, StandsAlone s line front) ∨
      ¬ Unspliced s ∧ ∃ front last, IsJoined s line front last := by
  obtain ⟨lines, last, hended, hphysical, hunspliced⟩ := exists_ended s
  have hempty : ∀ b ∈ ([] : Bytes), isInert b = true := by simp
  have hafter : physical (s ++ 0x0a :: line) = ended s ++ [line] := physical_concat h s
  rw [hended] at hphysical hafter
  cases hlast : spliced? last with
  | none =>
    refine .inl ⟨((lines ++ [last]).foldr splice []).map Trigraph.replace, ?_, ?_, ?_⟩
    · simpa using (foldr_splice_alone hlast h lines).2
    · rcases hphysical with hphysical | hphysical
      · left
        rw [ofSource, hphysical]
      · right
        rw [ofSource, hphysical, (foldr_splice_alone hlast hempty lines).1, List.map_append,
          List.map_singleton, Trigraph.replace_of_isInert hempty]
    · rw [ofSource, hafter, (foldr_splice_alone hlast h lines).1, List.map_append,
        List.map_singleton, Trigraph.replace_of_isInert h]
  | some body =>
    obtain ⟨front, start, hend, hjoined⟩ := exists_foldr_splice_joined hlast lines
    refine .inr ⟨fun hs => ?_, front.map Trigraph.replace, start, ?_, ?_⟩
    · rw [hunspliced hs] at hlast
      cases hlast
    · have hlines : (physical s).foldr splice [] = front ++ [start] := by
        rcases hphysical with hphysical | hphysical
        · rw [hphysical, hend]
        · rw [hphysical, hjoined [] hempty, List.append_nil]
      rw [ofSource, hlines, List.map_append, List.map_singleton]
    · rw [ofSource, hafter, hjoined line h, List.map_append, List.map_singleton]

end LogicalLine

end MiniC
