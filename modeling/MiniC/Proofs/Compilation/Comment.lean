import MiniC.Proofs.Compilation.Stages
import MiniC.Proofs.Grammar.Concatenation
import MiniC.Proofs.Macro.AppendedComment
import MiniC.Proofs.Scan.Trailing

/-!
# Comments and compilation

`compile_comment`: a comment behind a source changes nothing but positions, if it passes the
preprocessor. The output ends with the comment then, on a line of its own or joined to the last one
(`Macro.preprocess_comment`). The parser runs in step with the parser of the text without it up to
the seam between them and skips the comment there (`Grammar.parseProgram_seam`). Programs that are
equal up to positions have the same image.

Not every comment passes: the preprocessor finds tokens in it and expands them, and behind a splice
it may take it for a part of a directive (`not_compile_comment`).
-/

namespace MiniC

/-! ### Reading a program in front of a comment -/

namespace Grammar

open MiniC.Parser MiniC.Scan ParserState

section Seam
variable {a a' fileA file : Bytes} {P : Program}

/-- A program is read in the same way from two texts in step, if nothing follows behind the seam. -/
theorem parseProgram_seam {S : Seam .anywhere} (hnext : S.next = [])
    (h : (parseProgram a fileA .initial).1 = .ok P)
    (hstart : (start a fileA .initial).Clean →
      S.Aligned (start a fileA .initial) (start a' file .initial)) :
    ∃ C, (parseProgram a' file .initial).1 = .ok C ∧ Alike Program.unplaced P C := by
  have hpair : parseProgram a fileA .initial = (.ok P, (parseProgram a fileA .initial).2) :=
    Prod.ext h rfl
  obtain ⟨s, hrun, hclean, -⟩ := parseProgram_ok hpair
  obtain ⟨-, hstartA⟩ := iterateWithin_back _ Vocabulary.grown_initial hrun
  obtain ⟨C, k, t, hC, hrun', hk, ht, hend⟩ :=
    program_run_front hrun hclean (hstart (hstartA hclean))
  obtain ⟨x, k, rfl⟩ := List.exists_cons_of_length_pos (Nat.zero_lt_of_lt hk)
  have hdone := hrun'.trans (iterateWithin_atEnd ((ht.atEnd hend).1.trans hnext) x k _)
  rw [List.reverse_reverse] at hdone
  exact ⟨C, by rw [parseProgram_of_run hdone ht.clean], hC⟩

/-- A newline behind a program is skipped. -/
theorem parseProgram_newline (h : (parseProgram a fileA .initial).1 = .ok P) (file : Bytes) :
    ∃ C, (parseProgram (a ++ [0x0a]) file .initial).1 = .ok C ∧ Alike Program.unplaced P C :=
  parseProgram_seam (S := (Boundary.newLine [] [] rfl (.inl rfl)).seam .anywhere) rfl h
    (aligned_start _ .anywhere _ Vocabulary.grown_initial trivial rfl)

/-- Two texts of which one ends with a comment are in step from the start. -/
theorem aligned_joined {front old new : Bytes} (hend : JoinedEnd old new) {S : Seam .anywhere}
    (hS : S.toJoint = joinedEnds old new) (hs : (start (front ++ old) fileA .initial).Clean) :
    S.Aligned (start (front ++ old) fileA .initial) (start (front ++ new) file .initial) := by
  have hstep : InStep (joinedEnds old new) false (start (front ++ old) fileA .initial).scanner
      (start (front ++ new) file .initial).scanner := by
    refine skip_joined hend (s := ⟨Cursor.ofText (front ++ old) fileA, none⟩)
      (t := ⟨Cursor.ofText (front ++ new) file, none⟩) (q := front) rfl rfl (fun _ => rfl) rfl hs
  refine ⟨hS ▸ hstep.meets, hstep.fault, rfl, Vocabulary.grown_initial, ?_⟩
  rw [text_start]
  refine ⟨trivial, ?_⟩
  rw [hS]
  exact List.suffix_append front old

/-- **A comment behind a program is skipped,** where it stands on a line of its own and where it is
joined to the last one. -/
theorem parseProgram_commented {text text' : Bytes} (hcomment : Macro.Commented text text')
    (h : (parseProgram text fileA .initial).1 = .ok P) :
    ∃ C, (parseProgram text' fileA .initial).1 = .ok C ∧ Alike Program.unplaced P C := by
  rcases hcomment with rfl | ⟨front, old, new, rfl, rfl, hend⟩
  · exact ⟨P, h, rfl⟩
  · obtain ⟨S, hS⟩ := exists_seam_joined hend
    exact parseProgram_seam (by rw [hS]; rfl) h (aligned_joined hend hS)

/-- The same behind a newline. -/
theorem parseProgram_appended {text text' gap : Bytes} (hgap : gap = [] ∨ gap = [0x0a])
    (hcomment : Macro.Commented (text ++ gap) text')
    (h : (parseProgram text fileA .initial).1 = .ok P) :
    ∃ C, (parseProgram text' fileA .initial).1 = .ok C ∧ Alike Program.unplaced P C := by
  rcases hgap with rfl | rfl
  · rw [List.append_nil] at hcomment
    exact parseProgram_commented hcomment h
  · obtain ⟨C, hC, halike⟩ := parseProgram_newline h fileA
    obtain ⟨D, hD, halike'⟩ := parseProgram_commented hcomment hC
    exact ⟨D, hD, halike.trans halike'⟩

end Seam

end Grammar

namespace Compilation

open Macro (expandLine tableBefore)

theorem reportedFile_reportedFile (file : Bytes) :
    reportedFile (reportedFile file) = reportedFile file := by
  unfold reportedFile
  split_ifs <;> rfl

/-- **A comment behind a source is inert, once it passes the preprocessor.** If the source compiles,
then with a comment behind it it either fails in the preprocessor or compiles to the same image, up
to positions. The preprocessor expands the comment with the macros that the source defines, on a
line of its own if the source does not end with a splice; the expansion of that line decides
then. -/
theorem compile_comment {s c file : Bytes} {clock : Clock} {compiled : Compiled}
    (h : compile s file ⟨⟨[], [], clock⟩, false, [], []⟩ = .ok compiled)
    (hc : ∀ b ∈ c, isInert b = true) :
    let o : Options := ⟨⟨[], [], clock⟩, false, [], []⟩
    let s' := s ++ 0x0a :: (ascii "//" ++ c)
    let lines := LogicalLine.ofSource s
    let table := tableBefore o.macros.table lines lines.length
    let place := ⟨reportedFile file, Int64.ofNat (LogicalLine.ofSource s').length⟩
    (∀ e, Macro.preprocess s' (reportedFile file) o.macros = .error e →
      compile s' file o = .error (.preprocessing e)) ∧
    (∀ text, Macro.preprocess s' (reportedFile file) o.macros = .ok text →
      ∃ compiled', compile s' file o = .ok compiled' ∧
        compiled'.image.unplaced = compiled.image.unplaced) ∧
    (LogicalLine.Unspliced s →
      (∀ e, expandLine table place (ascii "//" ++ c) = .error e →
        compile s' file o = .error (.preprocessing e)) ∧
      ∀ text, expandLine table place (ascii "//" ++ c) = .ok text →
        ∃ compiled', compile s' file o = .ok compiled' ∧
          compiled'.image.unplaced = compiled.image.unplaced) := by
  intro o s' lines table place
  obtain ⟨hout, hparse, hgenerate⟩ := compile_eq_ok.1 h
  have hwords : Vocabulary.initial.extend o.types o.modifiers = .initial :=
    Vocabulary.extend_nil .initial
  rw [hwords] at hparse
  have hpreprocess : Macro.preprocess s (reportedFile file) o.macros = .ok compiled.text :=
    mapError_eq_ok.1 hout
  have hfails : ∀ e, Macro.preprocess s' (reportedFile file) o.macros = .error e →
      compile s' file o = .error (.preprocessing e) := by
    intro e he
    rw [compile, parse, preprocessed, he]
    rfl
  have hpasses : ∀ text, Macro.preprocess s' (reportedFile file) o.macros = .ok text →
      ∃ compiled', compile s' file o = .ok compiled' ∧
        compiled'.image.unplaced = compiled.image.unplaced := by
    intro text htext
    have hone : o.macros.table.OneLined := Macro.Table.oneLined_initial clock
    obtain ⟨gap, hgap, hcomment⟩ := Macro.preprocess_comment hone hc hpreprocess htext
    obtain ⟨program, hparse', halike⟩ := Grammar.parseProgram_appended hgap hcomment hparse
    obtain ⟨image, hgenerate', himage⟩ := Storage.exists_generate_of_alike halike hgenerate
    have hcompile : compile s' file o = .ok ⟨⟨text, program⟩, image⟩ := by
      rw [compile_eq_ok, hwords]
      exact ⟨mapError_eq_ok.2 htext, hparse', hgenerate'⟩
    exact ⟨_, hcompile, himage⟩
  refine ⟨hfails, hpasses, fun hs => ?_⟩
  -- the comment is a line of its own
  rcases LogicalLine.ofSource_concat (isInert_comment hc) s with ⟨front, halone⟩ | ⟨hnot, -⟩
  · obtain ⟨gap, -, hcomment⟩ := Macro.preprocess_standsAlone halone hpreprocess
    rw [reportedFile_reportedFile] at hcomment
    refine ⟨fun e he => hfails e ?_, fun text htext => hpasses (compiled.text ++ gap ++ text) ?_⟩
    · rw [hcomment, he]
      rfl
    · rw [hcomment, htext]
      rfl
  · exact absurd hs hnot

theorem exists_of_isOk {ε α : Type} {x : Except ε α} (h : x.isOk = true) : ∃ a, x = .ok a := by
  cases x with
  | error e => cases h
  | ok a => exact ⟨a, rfl⟩

/-- The first source ends with a carriage return, and the comment names a macro of the source. The
second one ends with a splice, so that the comment belongs to a definition, where it is not
expanded. -/
theorem compile_comment_macro :
    let o : Options := ⟨⟨[], [], ⟨2024, 2, 29, 12, 30, 0⟩⟩, false, [], []⟩
    let s := ascii "#define N 3\nint x = N;" ++ [0x0d]
    let c := ascii " N = \"__LINE__\" / 2"
    let r := ascii "int x;\n#define N 3\\"
    let d := ascii " don't"
    (LogicalLine.Unspliced s ∧ (∀ b ∈ c, isInert b = true) ∧
      ∃ compiled compiled', compile s [] o = .ok compiled ∧
        compile (s ++ 0x0a :: (ascii "//" ++ c)) [] o = .ok compiled' ∧
        compiled'.image.unplaced = compiled.image.unplaced) ∧
    ¬ LogicalLine.Unspliced r ∧ (∀ b ∈ d, isInert b = true) ∧
      ∃ compiled compiled', compile r [] o = .ok compiled ∧
        compile (r ++ 0x0a :: (ascii "//" ++ d)) [] o = .ok compiled' ∧
        compiled'.image.unplaced = compiled.image.unplaced := by
  intro o s c r d
  constructor
  · have hs : LogicalLine.Unspliced s := ⟨by decide, by decide⟩
    have hc : ∀ b ∈ c, isInert b = true := List.all_eq_true.1 (by decide +kernel)
    obtain ⟨compiled, h⟩ := exists_of_isOk (x := compile s [] o) (by decide +kernel)
    obtain ⟨-, -, halone⟩ := compile_comment h hc
    obtain ⟨compiled', h', himage⟩ := (halone hs).2 (ascii "// 3 = \"__LINE__\" / 2")
      (by decide +kernel)
    exact ⟨hs, hc, compiled, compiled', h, h', himage⟩
  · have hr : ¬ LogicalLine.Unspliced r := fun hr => hr.backslash (by decide)
    have hd : ∀ b ∈ d, isInert b = true := List.all_eq_true.1 (by decide +kernel)
    obtain ⟨compiled, h⟩ := exists_of_isOk (x := compile r [] o) (by decide +kernel)
    obtain ⟨-, hpasses, -⟩ := compile_comment h hd
    obtain ⟨compiled', h', himage⟩ := hpasses (ascii "int x;\n") (by decide +kernel)
    exact ⟨hr, hd, compiled, compiled', h, h', himage⟩

/-- The preprocessor reads comments: an apostrophe opens a literal there. And behind a splice the
comment belongs to the line before, which may be a directive. -/
theorem not_compile_comment :
    let o : Options := ⟨⟨[], [], ⟨2024, 2, 29, 12, 30, 0⟩⟩, false, [], []⟩
    (¬ ∀ s c compiled, LogicalLine.Unspliced s → (∀ b ∈ c, isInert b = true) →
      compile s [] o = .ok compiled →
      ∃ compiled', compile (s ++ 0x0a :: (ascii "//" ++ c)) [] o = .ok compiled') ∧
    ¬ ∀ s compiled, compile s [] o = .ok compiled →
      ∃ compiled', compile (s ++ 0x0a :: ascii "//") [] o = .ok compiled' := by
  intro o
  constructor
  · intro h
    obtain ⟨compiled, hs⟩ := exists_of_isOk (x := compile (ascii "int x;") [] o) (by decide +kernel)
    obtain ⟨compiled', hs'⟩ := h (ascii "int x;") (ascii " don't") compiled
      ⟨by decide, by decide⟩ (List.all_eq_true.1 (by decide +kernel)) hs
    have hnot : (compile (ascii "int x;\n// don't") [] o).isOk = false := by decide +kernel
    exact Bool.false_ne_true (hnot.symm.trans (congrArg Except.isOk hs'))
  · intro h
    obtain ⟨compiled, hs⟩ := exists_of_isOk (x := compile (ascii "#define A\\") [] o)
      (by decide +kernel)
    obtain ⟨compiled', hs'⟩ := h (ascii "#define A\\") compiled hs
    have hnot : (compile (ascii "#define A\\\n//") [] o).isOk = false := by decide +kernel
    exact Bool.false_ne_true (hnot.symm.trans (congrArg Except.isOk hs'))

end Compilation

end MiniC
