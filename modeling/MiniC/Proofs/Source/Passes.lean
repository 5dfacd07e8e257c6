import MiniC.Proofs.Source.Splicing
import MiniC.Proofs.Text.Pieces

/-!
# Logical lines in passes

`LogicalLine.ofSource` cuts a source into lines in one scan and splices them from the back. The same
lines come about in passes over the whole text: two substitutions make a newline of every line end,
the text is split at its newlines, and one loop over the lines collects what is not finished yet,
with a flag that something is pending (`Joining`).

* `ofSource_eq_passes`: both give the same logical lines. A source falls into the lines that the
  substitutions and the split give (`CutInto.fields_newlines`), and the loop splices as from the
  back (`Joining.finish_foldl`).
-/

namespace MiniC.LogicalLine

/-! ### Line ends -/

/-- Every line end as a newline: those of two bytes first, then the carriage returns left. -/
def newlines (source : Bytes) : Bytes :=
  replaceAll [0x0d] [0x0a] (replaceAll [0x0d, 0x0a] [0x0a] source)

theorem newlines_append {line : Bytes} (h : ∀ b ∈ line, isInLine b = true) (s : Bytes) :
    newlines (line ++ s) = line ++ newlines s := by
  have hreturn : ∀ b ∈ line, some (0x0d : UInt8) ≠ some b := by
    intro b hb heq
    exact (isInLine_iff.1 (h b hb)).2 (Option.some.inj heq).symm
  rw [newlines, replaceAll_append (by simp) hreturn, replaceAll_append (by simp) hreturn, newlines]

theorem LineBreak.newlines_append {rest stop : Bytes} (h : LineBreak rest stop) :
    newlines (stop ++ rest) = 0x0a :: newlines rest := by
  have hkeep (s : Bytes) : replaceAll [0x0d] [0x0a] (0x0a :: s) =
      0x0a :: replaceAll [0x0d] [0x0a] s := replaceAll_keep (by simp) (by simp)
  cases h with
  | both => rw [newlines, replaceAll_found (by simp), List.singleton_append, hkeep, newlines]
  | newline =>
    rw [newlines, List.singleton_append, replaceAll_keep (by simp) (by simp), hkeep, newlines]
  | alone hrest =>
    have hnot : ¬ [0x0d, 0x0a] <+: 0x0d :: rest := by
      intro hprefix
      obtain ⟨s, hs⟩ := (List.cons_prefix_cons.1 hprefix).2
      exact hrest (by rw [← hs]; rfl)
    have hfound (s : Bytes) : replaceAll [0x0d] [0x0a] (0x0d :: s) =
        0x0a :: replaceAll [0x0d] [0x0a] s := replaceAll_found (by simp)
    rw [newlines, List.singleton_append, replaceAll_keep (by simp) hnot, hfound, newlines]

/-- A source falls into what lies between the newlines that its line ends become. -/
theorem CutInto.fields_newlines {source : Bytes} {lines : List Bytes} (h : CutInto source lines) :
    Bytes.fields 0x0a (newlines source) = lines := by
  have hnewline {line : Bytes} (hline : ∀ b ∈ line, isInLine b = true) : 0x0a ∉ line :=
    fun hmem => (isInLine_iff.1 (hline _ hmem)).1 rfl
  induction h with
  | @last line hline =>
    have hend : newlines [] = [] := rfl
    have hsame := LogicalLine.newlines_append hline []
    rw [hend, List.append_nil] at hsame
    rw [hsame, fields_of_notMem (hnewline hline)]
  | cut hline hstop _ ih =>
    rw [LogicalLine.newlines_append hline, hstop.newlines_append,
      fields_append_sep (hnewline hline), ih]

/-! ### Joining lines -/

/-- The logical lines finished so far, last one first, and the line that is being joined. -/
structure Joining where
  done : List Bytes
  unfinished : Bytes
  /-- The last line ended in a backslash. -/
  pending : Bool

namespace Joining

/-- Reads one more physical line. -/
def step (j : Joining) (line : Bytes) : Joining :=
  match spliced? line with
  | some body => ⟨j.done, j.unfinished ++ body, true⟩
  | none => ⟨(j.unfinished ++ line) :: j.done, [], false⟩

/-- The logical lines, with the line that is still pending. -/
def finish (j : Joining) : List Bytes :=
  (if j.pending then j.unfinished :: j.done else j.done).reverse

theorem splice_splice (front body : Bytes) (after : List Bytes) :
    splice (front ++ [ch '\\']) (splice (body ++ [ch '\\']) after) =
      splice (front ++ body ++ [ch '\\']) after := by
  cases after with
  | nil => simp [splice, spliced?]
  | cons next more => rw [splice_joined, splice_joined, splice_joined, List.append_assoc]

/-- Lines that are read join what is pending to the lines that are spliced from the back. -/
theorem finish_foldl (lines done : List Bytes) :
    (∀ front, (lines.foldl step ⟨done, front, true⟩).finish =
      done.reverse ++ splice (front ++ [ch '\\']) (lines.foldr splice [])) ∧
    (lines.foldl step ⟨done, [], false⟩).finish = done.reverse ++ lines.foldr splice [] := by
  induction lines generalizing done with
  | nil => simp [finish, splice, spliced?]
  | cons line lines ih =>
    rw [List.foldr_cons]
    simp only [List.foldl_cons]
    cases hend : endsInBackslash line with
    | false =>
      have hnone := spliced?_of_not_endsInBackslash hend
      have hstep (front : Bytes) (pending : Bool) :
          step ⟨done, front, pending⟩ line = ⟨(front ++ line) :: done, [], false⟩ := by
        rw [step, hnone]
      rw [splice_of_none hnone]
      refine ⟨fun front => ?_, ?_⟩
      · rw [hstep, (ih _).2, splice_joined, List.reverse_cons, List.append_assoc,
          List.singleton_append]
      · rw [hstep, (ih _).2, List.nil_append, List.reverse_cons, List.append_assoc,
          List.singleton_append]
    | true =>
      obtain ⟨body, rfl, hsome⟩ := spliced?_of_endsInBackslash hend
      have hstep (front : Bytes) (pending : Bool) :
          step ⟨done, front, pending⟩ (body ++ [ch '\\']) = ⟨done, front ++ body, true⟩ := by
        rw [step, hsome]
      refine ⟨fun front => ?_, ?_⟩
      · rw [hstep, (ih _).1, splice_splice]
      · rw [hstep, (ih _).1, List.nil_append]

end Joining

/-- The logical lines, made in passes over the source. -/
def passes (source : Bytes) : List Bytes :=
  ((Bytes.fields 0x0a (newlines source)).foldl Joining.step ⟨[], [], false⟩).finish.map
    Trigraph.replace

/-- **The scan and the passes give the same logical lines.** -/
theorem ofSource_eq_passes (source : Bytes) : ofSource source = passes source := by
  have hlines : Bytes.fields 0x0a (newlines source) = physical source :=
    (cutInto_iff.2 rfl).fields_newlines
  rw [passes, hlines, (Joining.finish_foldl (physical source) []).2, List.reverse_nil,
    List.nil_append, ofSource]

end MiniC.LogicalLine
