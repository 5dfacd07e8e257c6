import Mathlib.Data.List.TakeWhile
import MiniC.Proofs.Text.ByteClass
import MiniC.Source.LogicalLine

/-!
# Physical lines, runs and logical lines

`CutInto source lines` says how a source falls into physical lines, without the scan that cuts it:
the lines hold no line end, and between two of them stands a carriage return with a newline, a
newline, or a carriage return without one. Every source falls into lines in one way, the one that
is scanned (`cutInto_iff`).

A `Run` is a row of physical lines of which each is joined to the next by a backslash at its end.
Lines fall into runs (`FallsInto`) so that no run but the last ends in a backslash, and splicing
makes one line of each run (`FallsInto.foldr_splice`).

* `ofSource_splices`: the logical lines of a source are the spliced runs of its physical lines with
  their trigraphs replaced. Their number is that of the lines that join nothing, no line end is left
  in them, and the three ways to end a line come to the same.
-/

namespace MiniC

namespace LogicalLine

/-! ### Physical lines -/

/-- The byte takes no part in a line end. -/
def isInLine (b : UInt8) : Bool := b != 0x0a && b != 0x0d

theorem isInLine_iff {b : UInt8} : isInLine b = true ↔ b ≠ 0x0a ∧ b ≠ 0x0d := by
  simp [isInLine]

/-- What ends a line in front of `rest`. A carriage return alone does so if no newline follows. -/
inductive LineBreak (rest : Bytes) : Bytes → Prop
  | both : LineBreak rest [0x0d, 0x0a]
  | newline : LineBreak rest [0x0a]
  | alone : rest.head? ≠ some 0x0a → LineBreak rest [0x0d]

/-- The source falls into the lines, cut at its line ends. -/
inductive CutInto : Bytes → List Bytes → Prop
  | last {line : Bytes} : (∀ b ∈ line, isInLine b = true) → CutInto line [line]
  | cut {line stop rest : Bytes} {lines : List Bytes} : (∀ b ∈ line, isInLine b = true) →
      LineBreak rest stop → CutInto rest lines → CutInto (line ++ (stop ++ rest)) (line :: lines)

/-- A line is read into the current line. -/
theorem foldl_step_line {line : Bytes} (h : ∀ b ∈ line, isInLine b = true) (done : List Bytes)
    (current : Bytes) : line.foldl Cutting.step ⟨done, current, false⟩ =
      ⟨done, line.reverse ++ current, false⟩ := by
  induction line generalizing current with
  | nil => rfl
  | cons b line ih =>
    obtain ⟨hb, hline⟩ := List.forall_mem_cons.1 h
    obtain ⟨hn, hr⟩ := isInLine_iff.1 hb
    have hstep : Cutting.step ⟨done, current, false⟩ b = ⟨done, b :: current, false⟩ := by
      rw [Cutting.step, if_neg hr, if_neg hn]
    rw [List.foldl_cons, hstep, ih hline]
    simp

/-- A carriage return is of no account if no newline follows. -/
theorem close_foldl_afterReturn {s : Bytes} (h : s.head? ≠ some 0x0a) (done : List Bytes)
    (current : Bytes) : (s.foldl Cutting.step ⟨done, current, true⟩).close false =
      (s.foldl Cutting.step ⟨done, current, false⟩).close false := by
  cases s with
  | nil => rfl
  | cons b s =>
    have hb : b ≠ 0x0a := fun hb => h (congrArg some hb)
    have hstep : Cutting.step ⟨done, current, true⟩ b = Cutting.step ⟨done, current, false⟩ b := by
      simp only [Cutting.step, Cutting.close, if_neg hb]
    rw [List.foldl_cons, List.foldl_cons, hstep]

/-- A line end closes the current line. -/
theorem LineBreak.close_foldl {rest stop : Bytes} (h : LineBreak rest stop) (done : List Bytes)
    (current : Bytes) : ((stop ++ rest).foldl Cutting.step ⟨done, current, false⟩).close false =
      (rest.foldl Cutting.step ⟨current.reverse :: done, [], false⟩).close false := by
  cases h with
  | both => rfl
  | newline => rfl
  | alone hrest => exact close_foldl_afterReturn hrest (current.reverse :: done) []

theorem CutInto.done_foldl {source : Bytes} {lines : List Bytes} (h : CutInto source lines)
    (done : List Bytes) : ((source.foldl Cutting.step ⟨done, [], false⟩).close false).done =
      lines.reverse ++ done := by
  induction h generalizing done with
  | last hline =>
    rw [foldl_step_line hline]
    simp [Cutting.close]
  | @cut line stop rest lines hline hstop _ ih =>
    rw [List.foldl_append, foldl_step_line hline, hstop.close_foldl, ih]
    simp

theorem CutInto.eq_physical {source : Bytes} {lines : List Bytes} (h : CutInto source lines) :
    lines = physical source := by
  rw [physical, h.done_foldl]
  simp

/-- Where a line stops, a line end stands. -/
theorem exists_lineBreak {b : UInt8} (hb : isInLine b = false) (s : Bytes) :
    ∃ stop rest, b :: s = stop ++ rest ∧ LineBreak rest stop ∧ rest.length ≤ s.length := by
  by_cases hn : b = 0x0a
  · exact ⟨[0x0a], s, by rw [hn]; rfl, .newline, Nat.le_refl _⟩
  have hr : b = 0x0d := by
    by_contra hr
    rw [isInLine_iff.2 ⟨hn, hr⟩] at hb
    cases hb
  by_cases hs : s.head? = some 0x0a
  · obtain ⟨rest, rfl⟩ := List.head?_eq_some_iff.1 hs
    exact ⟨[0x0d, 0x0a], rest, by rw [hr]; rfl, .both, by simp⟩
  · exact ⟨[0x0d], s, by rw [hr]; rfl, .alone hs, Nat.le_refl _⟩

/-- Every source falls into lines. -/
theorem exists_cutInto (source : Bytes) : ∃ lines, CutInto source lines := by
  induction hn : source.length using Nat.strongRecOn generalizing source with
  | ind n ih =>
    have hsource := List.takeWhile_append_dropWhile (p := isInLine) (l := source)
    have hline : ∀ b ∈ source.takeWhile isInLine, isInLine b = true :=
      fun b => List.mem_takeWhile_imp
    have hstop := List.head?_dropWhile_not isInLine source
    generalize source.takeWhile isInLine = line at hsource hline
    cases hrest : source.dropWhile isInLine with
    | nil =>
      rw [hrest, List.append_nil] at hsource
      rw [← hsource]
      exact ⟨[line], .last hline⟩
    | cons b s =>
      rw [hrest] at hsource hstop
      obtain ⟨stop, rest, hs, hbreak, hlength⟩ := exists_lineBreak hstop s
      have hshorter : rest.length < n := by
        rw [← hn, ← hsource, List.length_append, List.length_cons]
        omega
      obtain ⟨lines, hlines⟩ := ih rest.length hshorter rest rfl
      rw [← hsource, hs]
      exact ⟨_, .cut hline hbreak hlines⟩

/-- **A source falls into its physical lines and no others.** -/
theorem cutInto_iff {source : Bytes} {lines : List Bytes} :
    CutInto source lines ↔ lines = physical source := by
  refine ⟨CutInto.eq_physical, ?_⟩
  rintro rfl
  obtain ⟨lines, hlines⟩ := exists_cutInto source
  rwa [← hlines.eq_physical]

theorem CutInto.isInLine_of_mem {source : Bytes} {lines : List Bytes} (h : CutInto source lines) :
    ∀ line ∈ lines, ∀ b ∈ line, isInLine b = true := by
  induction h with
  | last hline => simpa using hline
  | cut hline _ _ ih => exact List.forall_mem_cons.2 ⟨hline, ih⟩

theorem physical_ne_nil (source : Bytes) : physical source ≠ [] := by
  simp [physical, Cutting.close]

/-! ### Runs of lines -/

/-- The line is joined to the next one. -/
def endsInBackslash (line : Bytes) : Bool := line.getLast? == some (ch '\\')

/-- Physical lines of which each is joined to the next one. -/
structure Run where
  /-- The lines in front of the last one, without the backslashes at their ends. -/
  joined : List Bytes
  /-- The last line. -/
  ending : Bytes

/-- The physical lines of a run. -/
def Run.lines (run : Run) : List Bytes := run.joined.map (· ++ [ch '\\']) ++ [run.ending]

/-- The lines of a run as one. A backslash that joins nothing is dropped too. -/
def Run.text (run : Run) : Bytes := run.joined.flatten ++ Bytes.withoutTail [ch '\\'] run.ending

/-- The lines fall into the runs, and each run goes on as long as lines are joined. -/
structure FallsInto (lines : List Bytes) (runs : List Run) : Prop where
  lines_eq : lines = runs.flatMap Run.lines
  /-- Only at the end of all lines a backslash joins nothing. -/
  closed : ∀ run ∈ runs.dropLast, endsInBackslash run.ending = false

theorem spliced?_of_endsInBackslash {line : Bytes} (h : endsInBackslash line = true) :
    ∃ body, line = body ++ [ch '\\'] ∧ spliced? line = some body := by
  obtain ⟨body, rfl⟩ := List.getLast?_eq_some_iff.1 (by simpa [endsInBackslash] using h)
  exact ⟨body, rfl, by simp [spliced?]⟩

theorem spliced?_of_not_endsInBackslash {line : Bytes} (h : endsInBackslash line = false) :
    spliced? line = none := by
  have hlast : line.getLast? ≠ some (ch '\\') := by simpa [endsInBackslash] using h
  rw [spliced?, if_neg hlast]

theorem splice_of_none {line : Bytes} (h : spliced? line = none) (after : List Bytes) :
    splice line after = line :: after := by
  unfold splice
  rw [h]

theorem splice_of_some {line body : Bytes} (h : spliced? line = some body) (next : Bytes)
    (more : List Bytes) : splice line (next :: more) = (body ++ next) :: more := by
  unfold splice
  rw [h]

theorem withoutTail_concat (tail body : Bytes) :
    Bytes.withoutTail tail (body ++ tail) = body := by
  have htail : tail.isSuffixOf (body ++ tail) = true :=
    List.isSuffixOf_iff_suffix.2 (List.suffix_append body tail)
  rw [Bytes.withoutTail, if_pos htail]
  simp

theorem withoutTail_of_not_endsInBackslash {line : Bytes} (h : endsInBackslash line = false) :
    Bytes.withoutTail [ch '\\'] line = line := by
  have htail : ¬ [ch '\\'].isSuffixOf line = true := by
    intro htail
    obtain ⟨body, rfl⟩ := List.isSuffixOf_iff_suffix.1 htail
    simp [endsInBackslash] at h
  rw [Bytes.withoutTail, if_neg htail]

/-- The last line of a run is put in front of the lines behind the run. -/
theorem splice_ending {ending : Bytes} {after : List Bytes}
    (h : endsInBackslash ending = false ∨ after = []) :
    splice ending after = Bytes.withoutTail [ch '\\'] ending :: after := by
  cases hend : endsInBackslash ending with
  | false =>
    rw [withoutTail_of_not_endsInBackslash hend,
      splice_of_none (spliced?_of_not_endsInBackslash hend)]
  | true =>
    obtain ⟨body, rfl, hbody⟩ := spliced?_of_endsInBackslash hend
    have hafter : after = [] := h.resolve_left (by rw [hend]; decide)
    rw [hafter, withoutTail_concat]
    simp only [splice, hbody]

theorem splice_joined (body next : Bytes) (after : List Bytes) :
    splice (body ++ [ch '\\']) (next :: after) = (body ++ next) :: after := by
  have hend : spliced? (body ++ [ch '\\']) = some body := by simp [spliced?]
  exact splice_of_some hend next after

/-- A run becomes one line. -/
theorem Run.foldr_splice (run : Run) {after : List Bytes}
    (h : endsInBackslash run.ending = false ∨ after = []) :
    run.lines.foldr splice after = run.text :: after := by
  obtain ⟨joined, ending⟩ := run
  rw [Run.lines, Run.text, List.foldr_append]
  induction joined with
  | nil => exact splice_ending h
  | cons body joined ih =>
    rw [List.map_cons, List.foldr_cons, ih h, splice_joined]
    simp

/-- **Splicing makes one line of each run.** -/
theorem FallsInto.foldr_splice {lines : List Bytes} {runs : List Run} (h : FallsInto lines runs) :
    lines.foldr splice [] = runs.map Run.text := by
  obtain ⟨rfl, hclosed⟩ := h
  induction runs with
  | nil => rfl
  | cons run runs ih =>
    have hmore : ∀ r ∈ runs.dropLast, endsInBackslash r.ending = false := by
      intro r hr
      cases runs with
      | nil => cases hr
      | cons next runs => exact hclosed r (List.mem_cons_of_mem run hr)
    have hrun : endsInBackslash run.ending = false ∨ runs.map Run.text = [] := by
      cases runs with
      | nil => exact .inr rfl
      | cons next runs => exact .inl (hclosed run List.mem_cons_self)
    rw [List.flatMap_cons, List.foldr_append, ih hmore, run.foldr_splice hrun, List.map_cons]

/-- All lines fall into runs. -/
theorem exists_fallsInto (lines : List Bytes) : ∃ runs, FallsInto lines runs := by
  induction lines with
  | nil => exact ⟨[], rfl, by simp⟩
  | cons line lines ih =>
    obtain ⟨runs, rfl, hclosed⟩ := ih
    cases runs with
    | nil => exact ⟨[⟨[], line⟩], by simp [Run.lines], by simp⟩
    | cons run runs =>
      cases hend : endsInBackslash line with
      | false =>
        refine ⟨⟨[], line⟩ :: run :: runs, by simp [Run.lines], ?_⟩
        exact List.forall_mem_cons.2 ⟨hend, hclosed⟩
      | true =>
        obtain ⟨body, rfl, -⟩ := spliced?_of_endsInBackslash hend
        refine ⟨⟨body :: run.joined, run.ending⟩ :: runs, by simp [Run.lines], ?_⟩
        cases runs with
        | nil => simp
        | cons next runs => simpa using hclosed

/-- Of the lines in front of the last one, those that are joined are not counted. -/
theorem length_foldr_splice {lines : List Bytes} (h : lines ≠ []) :
    (lines.foldr splice []).length + lines.dropLast.countP endsInBackslash = lines.length := by
  induction lines with
  | nil => exact absurd rfl h
  | cons line lines ih =>
    cases lines with
    | nil =>
      have hone : splice line [] = [Bytes.withoutTail [ch '\\'] line] := splice_ending (.inr rfl)
      simp [hone]
    | cons next lines =>
      have ih := ih (List.cons_ne_nil next lines)
      rw [List.foldr_cons, List.dropLast_cons_cons, List.countP_cons, List.length_cons]
      generalize (next :: lines).foldr splice [] = after at ih
      cases hend : endsInBackslash line with
      | false =>
        rw [splice_ending (.inl hend)]
        simp only [List.length_cons, Bool.false_eq_true, if_false] at ih ⊢
        omega
      | true =>
        obtain ⟨body, rfl, -⟩ := spliced?_of_endsInBackslash hend
        cases after with
        | nil =>
          have := List.countP_le_length (p := endsInBackslash) (l := (next :: lines).dropLast)
          rw [List.length_dropLast] at this
          simp only [List.length_cons, List.length_nil] at ih this
          omega
        | cons first after =>
          rw [splice_joined]
          simp only [List.length_cons, if_true] at ih ⊢
          omega

/-! ### The bytes of a logical line -/

end LogicalLine

section Class
variable {p : UInt8 → Prop}

namespace LogicalLine

/-- Splicing adds no bytes. -/
theorem forall_mem_foldr_splice {lines : List Bytes} (h : ∀ line ∈ lines, ∀ b ∈ line, p b) :
    ∀ line ∈ lines.foldr splice [], ∀ b ∈ line, p b := by
  obtain ⟨runs, hruns⟩ := exists_fallsInto lines
  rw [hruns.foldr_splice]
  intro text htext b hb
  obtain ⟨run, hrun, rfl⟩ := List.mem_map.1 htext
  have hlines : ∀ line ∈ run.lines, ∀ b ∈ line, p b := fun line hline => h line (by
    rw [hruns.lines_eq]
    exact List.mem_flatMap.2 ⟨run, hrun, hline⟩)
  rcases List.mem_append.1 hb with hb | hb
  · obtain ⟨body, hbody, hb⟩ := List.mem_flatten.1 hb
    exact hlines (body ++ [ch '\\']) (by simp [Run.lines, hbody]) b (by simp [hb])
  · have hmem : b ∈ run.ending := by
      unfold Bytes.withoutTail at hb
      split_ifs at hb
      · exact List.mem_of_mem_take hb
      · exact hb
    exact hlines run.ending (by simp [Run.lines]) b hmem

end LogicalLine

namespace Trigraph

theorem forall_mem_next? (himage : ∀ b c, image? b = some c → p c) {s s' : Bytes} {b : UInt8}
    (h : next? s = some (b, s')) (hs : ∀ c ∈ s, p c) : p b ∧ ∀ c ∈ s', p c := by
  cases s with
  | nil => cases h
  | cons x rest =>
    rw [next?] at h
    cases hfront : atFront? (x :: rest) with
    | some image =>
      rw [hfront] at h
      cases h
      refine ⟨?_, fun c hc => hs c (List.mem_of_mem_drop hc)⟩
      unfold atFront? at hfront
      split at hfront
      · split_ifs at hfront
        exact himage _ _ hfront
      · cases hfront
    | none =>
      rw [hfront] at h
      cases h
      exact List.forall_mem_cons.1 hs

theorem forall_mem_gather (himage : ∀ b c, image? b = some c → p c) (budget : Bytes) :
    ∀ found s : Bytes, (∀ c ∈ found, p c) → (∀ c ∈ s, p c) →
      ∀ c ∈ (gather next? budget found s).1, p c := by
  induction budget with
  | nil =>
    intro found s hfound _
    simpa [gather] using hfound
  | cons x budget ih =>
    intro found s hfound hs
    rw [gather]
    cases hnext : next? s with
    | none => simpa using hfound
    | some q =>
      obtain ⟨b, s'⟩ := q
      obtain ⟨hb, hs'⟩ := forall_mem_next? himage hnext hs
      exact ih (b :: found) s' (List.forall_mem_cons.2 ⟨hb, hfound⟩) hs'

/-- Replacement adds no bytes but images of trigraphs. -/
theorem forall_mem_replace (himage : ∀ b c, image? b = some c → p c) {line : Bytes}
    (h : ∀ b ∈ line, p b) : ∀ b ∈ replace line, p b := by
  rw [replace]
  split
  · exact forall_mem_gather himage line [] line (List.forall_mem_nil _) h
  · exact h

end Trigraph

end Class

namespace LogicalLine

/-- **No line end is left in a logical line.** -/
theorem isInLine_of_mem_ofSource (source : Bytes) :
    ∀ line ∈ ofSource source, ∀ b ∈ line, isInLine b = true := by
  have himage : ∀ b c, Trigraph.image? b = some c → isInLine c = true := by
    have hall : ∀ b : UInt8, (Trigraph.image? b).all isInLine = true :=
      forall_byte (by decide +kernel)
    intro b c hc
    have hb := hall b
    rw [hc] at hb
    exact hb
  have hphysical : ∀ line ∈ physical source, ∀ b ∈ line, isInLine b = true :=
    (cutInto_iff.2 rfl).isInLine_of_mem
  intro text htext
  obtain ⟨line, hline, rfl⟩ := List.mem_map.1 htext
  exact Trigraph.forall_mem_replace himage (forall_mem_foldr_splice hphysical line hline)

/-! ### Other line ends -/

/-- The source with a carriage return in front of each newline. -/
def withReturns (source : Bytes) : Bytes :=
  source.flatMap fun b => if b = 0x0a then [0x0d, 0x0a] else [b]

/-- The source with a carriage return for each newline. -/
def newlinesToReturns (source : Bytes) : Bytes :=
  source.map fun b => if b = 0x0a then 0x0d else b

theorem withReturns_of_isInLine {line : Bytes} (h : ∀ b ∈ line, isInLine b = true) :
    withReturns line = line := by
  induction line with
  | nil => rfl
  | cons b line ih =>
    obtain ⟨hb, hline⟩ := List.forall_mem_cons.1 h
    have hline := ih hline
    rw [withReturns] at hline ⊢
    rw [List.flatMap_cons, hline, if_neg (isInLine_iff.1 hb).1, List.singleton_append]

theorem newlinesToReturns_of_isInLine {line : Bytes} (h : ∀ b ∈ line, isInLine b = true) :
    newlinesToReturns line = line := by
  have hkeep : ∀ b ∈ line, (if b = 0x0a then 0x0d else b) = id b :=
    fun b hb => if_neg (isInLine_iff.1 (h b hb)).1
  rw [newlinesToReturns, List.map_congr_left hkeep, List.map_id]

/-- Without carriage returns newlines alone end a line. -/
theorem LineBreak.eq_newline {rest stop : Bytes} (h : LineBreak rest stop)
    (hr : (0x0d : UInt8) ∉ stop) : stop = [0x0a] := by
  cases h with
  | both => simp at hr
  | newline => rfl
  | alone _ => simp at hr

theorem newline_notMem_newlinesToReturns (source : Bytes) :
    (0x0a : UInt8) ∉ newlinesToReturns source := by
  intro hmem
  obtain ⟨b, -, hb⟩ := List.mem_map.1 hmem
  split_ifs at hb with hn
  · exact absurd hb (by decide)
  · exact hn hb

/-- **The lines are the same whichever way they end.** -/
theorem CutInto.otherEnds {source : Bytes} {lines : List Bytes} (h : CutInto source lines)
    (hr : (0x0d : UInt8) ∉ source) :
    CutInto (withReturns source) lines ∧ CutInto (newlinesToReturns source) lines := by
  induction h with
  | last hline =>
    rw [withReturns_of_isInLine hline, newlinesToReturns_of_isInLine hline]
    exact ⟨.last hline, .last hline⟩
  | @cut line stop rest lines hline hstop _ ih =>
    simp only [List.mem_append, not_or] at hr
    obtain ⟨-, hr', hrest⟩ := hr
    obtain ⟨hboth, halone⟩ := ih hrest
    obtain rfl := hstop.eq_newline hr'
    have hhead : (newlinesToReturns rest).head? ≠ some 0x0a := fun hhead =>
      newline_notMem_newlinesToReturns rest (List.mem_of_mem_head? hhead)
    have h₁ : withReturns (line ++ ([0x0a] ++ rest)) =
        line ++ ([0x0d, 0x0a] ++ withReturns rest) := by
      rw [withReturns, List.flatMap_append]
      exact congrArg (· ++ _) (withReturns_of_isInLine hline)
    have h₂ : newlinesToReturns (line ++ ([0x0a] ++ rest)) =
        line ++ ([0x0d] ++ newlinesToReturns rest) := by
      rw [newlinesToReturns, List.map_append]
      exact congrArg (· ++ _) (newlinesToReturns_of_isInLine hline)
    rw [h₁, h₂]
    exact ⟨.cut hline .both hboth, .cut hline (.alone hhead) halone⟩

theorem ofSource_congr {s t : Bytes} (h : physical s = physical t) : ofSource s = ofSource t := by
  rw [ofSource, ofSource, h]

/-! ### Logical lines -/

/-- **The logical lines of a source.** It falls into physical lines in one way. The lines in front
of the last one that end in a backslash are the only ones that do not count; these lines are joined
in maximal runs, each run is spliced into one logical line, and then trigraphs are replaced. No line
end is left. In a source without carriage returns, other line ends make no difference. -/
theorem ofSource_splices (source : Bytes) :
    ∃ lines, (∀ found, CutInto source found ↔ found = lines) ∧
      (ofSource source).length + lines.dropLast.countP endsInBackslash = lines.length ∧
      ((∃ runs, FallsInto lines runs) ∧ ∀ runs, FallsInto lines runs →
        ofSource source = runs.map fun run => Trigraph.replace run.text) ∧
      (∀ line ∈ ofSource source, (0x0d : UInt8) ∉ line ∧ (0x0a : UInt8) ∉ line) ∧
      ((0x0d : UInt8) ∉ source → ofSource (withReturns source) = ofSource source ∧
        ofSource (newlinesToReturns source) = ofSource source) := by
  refine ⟨physical source, fun found => cutInto_iff, ?_, ⟨exists_fallsInto _, ?_⟩, ?_, ?_⟩
  · rw [ofSource, List.length_map, length_foldr_splice (physical_ne_nil source)]
  · intro runs hruns
    rw [ofSource, hruns.foldr_splice, List.map_map]
    rfl
  · intro line hline
    have hbytes := isInLine_of_mem_ofSource source line hline
    exact ⟨fun hr => (isInLine_iff.1 (hbytes _ hr)).2 rfl,
      fun hn => (isInLine_iff.1 (hbytes _ hn)).1 rfl⟩
  · intro hr
    obtain ⟨hboth, halone⟩ := (cutInto_iff.2 (rfl : physical source = _)).otherEnds hr
    exact ⟨ofSource_congr hboth.eq_physical.symm, ofSource_congr halone.eq_physical.symm⟩

/-- A backslash that a trigraph stands for joins no lines, and one at the very end joins nothing. -/
theorem ofSource_splices_trigraph :
    let source := ascii "a\\\nb??/\nc\\"
    let lines := [ascii "a\\", ascii "b??/", ascii "c\\"]
    CutInto source lines ∧ FallsInto lines [⟨[ascii "a"], ascii "b??/"⟩, ⟨[], ascii "c\\"⟩] ∧
      ofSource source = [ascii "ab\\", ascii "c"] ∧ (0x0d : UInt8) ∉ source ∧
      ofSource (withReturns source) = ofSource source ∧
      ofSource (newlinesToReturns source) = ofSource source := by
  intro source lines
  have hcut : CutInto (ascii "a\\" ++ ([0x0a] ++ (ascii "b??/" ++ ([0x0a] ++ ascii "c\\"))))
      lines :=
    .cut (List.all_eq_true.1 (by decide)) .newline <|
    .cut (List.all_eq_true.1 (by decide)) .newline <| .last (List.all_eq_true.1 (by decide))
  have hfalls : FallsInto lines [⟨[ascii "a"], ascii "b??/"⟩, ⟨[], ascii "c\\"⟩] :=
    ⟨by decide, by decide⟩
  have hr : (0x0d : UInt8) ∉ source := by decide
  obtain ⟨found, hfound, -, ⟨-, hruns⟩, -, hends⟩ := ofSource_splices source
  obtain rfl : lines = found := (hfound lines).1 hcut
  exact ⟨hcut, hfalls, (hruns _ hfalls).trans (by decide), hr, hends hr⟩

end LogicalLine

end MiniC
