import MiniC.Proofs.Grammar.Concatenation
import MiniC.Proofs.Scan.BlankText
import MiniC.Proofs.Text.Quoted

/-!
# Line markers

A line marker says where the next line came from. `parseProgram_marker`: a program behind a marker
`# n "file"` is read as it is alone, and each of its nodes stands in `file`, `n - 1` lines further
on than alone; what is in front of the marker stays where it is.

The scanner gives the line of the marker the number `n - 1`, so that the newline behind it leads to
line `n` (`skip_marker`). From there on both readings count the same newlines (`Placing.moved`).
-/

namespace MiniC

open Scan

/-! ### The text of a marker -/

namespace LineMarker

/-- The marker of a line and a file. -/
def text (line : Nat) (file : Bytes) : Bytes :=
  ascii "# " ++ (Bytes.ofNat line ++ (ascii " \"" ++ (file ++ ascii "\"")))

/-- Printable, and neither a double quote nor a backslash. -/
def isPlain (b : UInt8) : Bool := 0x20 ≤ b && b ≤ 0x7e && b != ch '"' && b != ch '\\'

theorem class_of_isPlain : ∀ b : UInt8, isPlain b = true →
    b < 0x80 ∧ b ≠ ch '"' ∧ b ≠ ch '\\' ∧ b ≠ 0x0a :=
  forall_byte (by decide +kernel)

section Parts
variable {file : Bytes} (hfile : ∀ b ∈ file, isPlain b = true)
include hfile

theorem quotedBody_plain : Macro.QuotedBody (ch '"') (file ++ [ch '"']) := by
  induction file with
  | nil => exact .close
  | cons b file ih =>
    obtain ⟨hb, hfile⟩ := List.forall_mem_cons.1 hfile
    obtain ⟨-, hquote, hslash, -⟩ := class_of_isPlain b hb
    exact .cons hslash hquote (ih hfile)

theorem gathered_decodeNext?_plain : Gathered Quoted.decodeNext? file (file.map ([·])) [] := by
  induction file with
  | nil => exact .stop rfl
  | cons b file ih =>
    obtain ⟨hb, hfile⟩ := List.forall_mem_cons.1 hfile
    obtain ⟨hascii, hquote, hslash, hnewline⟩ := class_of_isPlain b hb
    have hutf8 : Utf8.next? (b :: file) = some (.char (Char.ofNat b.toNat), file) := by
      simp [Utf8.next?, hascii]
    have hnext : Quoted.decodeNext? (b :: file) = some ([b], file) := by
      simp [Quoted.decodeNext?, hslash, hquote, hnewline, hutf8, Utf8.encodeChar_one hascii]
    exact .take hnext (ih hfile)

theorem decode?_plain : Quoted.decode? file = some file := by
  have hgather := (gathered_decodeNext?_plain hfile).gather_of_length_le file []
    (by rw [List.length_map])
  rw [Quoted.decode?, hgather]
  exact congrArg some (List.flatMap_singleton' file)

/-- The text is a marker for the position one line before the one it names. -/
theorem exists_marker {line : Nat} (hline : line ≤ Blank.maxLine) :
    ∃ m : Marker, m.text = text line file ∧ m.position = ⟨file, Int64.ofNat line - 1⟩ := by
  have hname : (0x0a : UInt8) ∉ file ++ [ch '"'] ++ [] := by
    rw [List.append_nil, List.mem_append, not_or]
    exact ⟨fun h => (class_of_isPlain _ (hfile _ h)).2.2.2 rfl, by decide⟩
  have hspace : ∀ b ∈ ascii " ", Blank.isTabOrSpace b = true := List.all_eq_true.1 (by decide)
  refine ⟨⟨ascii " ", Bytes.ofNat line, ascii " ", file ++ [ch '"'], [], hspace,
    Bytes.ofNat_ne_nil line, fun b => Bytes.isDigit_of_mem_ofNat, ?_, by decide, hspace,
    quotedBody_plain hfile, hname⟩, ?_, ?_⟩
  · rwa [Bytes.digitsValue_ofNat]
  · simp [Marker.text, Marker.parts, text, ascii]
  · simp [Marker.position, Marker.file, decode?_plain hfile, Bytes.digitsValue_ofNat]

end Parts

end LineMarker

/-! ### Behind a marker -/

namespace Scan

section Marker
variable {line : Nat} {file b : Bytes} (hline : line ≤ Blank.maxLine)
  (hfile : ∀ x ∈ file, LineMarker.isPlain x = true)
include hline hfile

/-- The cursor behind white space and a marker. -/
theorem exists_skip_marker {s : Scanner} {w : Bytes} (hw : ∀ x ∈ w, isSpace x = true)
    (hr : s.cursor.rest = w ++ 0x0a :: (LineMarker.text line file ++ 0x0a :: b)) :
    ∃ before, s.skip false = Scanner.skip false
      ⟨⟨before, 0x0a :: b, ⟨file, Int64.ofNat line - 1⟩⟩, s.fault⟩ := by
  obtain ⟨m, htext, hposition⟩ := LineMarker.exists_marker hfile hline
  have happend : s.cursor.rest = (w ++ [0x0a]) ++ (m.text ++ 0x0a :: b) := by
    rw [hr, htext, List.append_assoc, List.singleton_append]
  have hspaces : ∀ x ∈ w ++ [0x0a], isSpace x = true :=
    List.forall_mem_append.2 ⟨hw, List.forall_mem_singleton.2 rfl⟩
  have hrest := Cursor.rest_advanceBy_length happend
  have hbefore := (Cursor.between_advanceBy happend).before
  set c := s.cursor.advanceBy (w ++ [0x0a]).length
  have hstart : LineStart c := by
    rw [LineStart, hbefore, List.reverse_append]
    exact .inr rfl
  have hrun : BlankRun s.cursor ((w ++ [0x0a]) ++ (m.text ++ [])) _ :=
    .spaces hspaces happend (.marker hstart (.inr ⟨b, rfl⟩) hrest .nil)
  refine ⟨(c.advanceBy m.text.length).before, ?_⟩
  rw [← Cursor.rest_advanceBy_length hrest, ← hposition]
  exact hrun.skipBlanks_eq s.fault

/-- **Behind a marker the scanner is where it is in the text alone,** in the file and with the line
number that the marker sets. -/
theorem skip_marker (hb : NoHashLine b) (hclean : (Scanner.ofText b file).fault = none)
    {s : Scanner} {w : Bytes} (hw : ∀ x ∈ w, isSpace x = true) (hf : s.fault = none)
    (hr : s.cursor.rest = w ++ 0x0a :: (LineMarker.text line file ++ 0x0a :: b)) :
    (s.skip false).cursor.rest = (Scanner.ofText b file).cursor.rest ∧
      (s.skip false).fault = none ∧ ((Scanner.ofText b file).cursor.rest ≠ [] →
        Placing.left (.moved file (Int64.ofNat line - 1)) (Scanner.ofText b file).cursor.position =
          (s.skip false).cursor.position) := by
  obtain ⟨before, hskip⟩ := exists_skip_marker hline hfile hw hr
  rw [hf] at hskip
  let t : Scanner := ⟨⟨before, 0x0a :: b, ⟨file, Int64.ofNat line - 1⟩⟩, none⟩
  have hnewline : (t.advanceBy 1).skip false = t.skip false :=
    Scanner.skip_advanceBy_one rfl (by decide)
  have hrest : (t.advanceBy 1).cursor.rest = b := rfl
  have hext : (Cursor.ofText b file).Extends [] (t.advanceBy 1).cursor := by
    refine ⟨by rw [hrest]; exact (List.append_nil b).symm, fun hne => ?_⟩
    have hleft : b.isEmpty = false := List.isEmpty_eq_false_iff.mpr hne
    have hstart : (t.advanceBy 1).cursor.atLineStart = ((0x0a : UInt8) == 0x0a && !b.isEmpty) := rfl
    rw [hstart, hleft]
    rfl
  have hplaces : Placing.Places (.moved file (Int64.ofNat line - 1)) (Cursor.ofText b file)
      (t.advanceBy 1).cursor := by
    refine ⟨hb, fun hne => ?_⟩
    have hleft : b.isEmpty = false := List.isEmpty_eq_false_iff.mpr hne
    have hposition : (t.advanceBy 1).cursor.position =
        if (0x0a : UInt8) = 0x0a && !b.isEmpty then ⟨file, Int64.ofNat line - 1 + 1⟩
        else ⟨file, Int64.ofNat line - 1⟩ := rfl
    rw [hposition, hleft]
    exact congrArg (Position.mk file) (Int64.add_comm 1 (Int64.ofNat line - 1))
  obtain ⟨hmeets, hcarried, -⟩ := Boundary.endOfText.skip_carries (Placing.carried_places _ [])
    (s := ⟨Cursor.ofText b file, none⟩) (t := t.advanceBy 1) hext hplaces rfl hclean
  rw [hskip, ← hnewline]
  refine ⟨?_, hmeets.fault, fun hne => (hcarried hne).position hne⟩
  by_cases hne : (Scanner.ofText b file).cursor.rest = []
  · rw [hne]
    exact hmeets.atEnd hne
  · rw [hmeets.inside hne]
    exact List.append_nil _

/-- What follows a text: a marker and then `b`, whose first word is placed as the marker says. -/
theorem exists_boundary_marker (hb : NoHashLine b)
    (hclean : (Scanner.ofText b file).fault = none)
    (hword : (Scanner.ofText b file).cursor.rest = [] ∨
      (Scanner.ofText b file).cursor.rest.head?.any isIdentStart = true) :
    ∃ B : Boundary, B.tail = 0x0a :: (LineMarker.text line file ++ 0x0a :: b) ∧
      B.next = (Scanner.ofText b file).cursor.rest ∧
      ∀ p, B.Lands p → (Scanner.ofText b file).cursor.rest ≠ [] →
        Placing.left (.moved file (Int64.ofNat line - 1)) (Scanner.ofText b file).cursor.position =
          p := by
  refine ⟨⟨0x0a :: (LineMarker.text line file ++ 0x0a :: b), (Scanner.ofText b file).cursor.rest,
    .inr ⟨_, rfl⟩, hword, ?_⟩, rfl, rfl, ?_⟩
  · intro s w hw hr hf
    obtain ⟨hrest, hfault, -⟩ := skip_marker hline hfile hb hclean hw hf hr
    exact ⟨hrest, hfault⟩
  · rintro p ⟨s, w, hw, hr, hf, rfl⟩ hne
    exact (skip_marker hline hfile hb hclean hw hf hr).2.2 hne

end Marker

end Scan

/-! ### Programs -/

namespace Grammar

open MiniC.Parser MiniC.Scan.Seam ParserState

/-- **A line marker relocates exactly what follows it.** If `a` is a program that leaves the
vocabulary `R`, and `b` is a program of `file` under the names of `R` in which no line starts with
`#`, then the text of `a`, a marker for `line` and `file`, and `b` is the program of all their
definitions. Those of `a` stay where they are, and each node of those of `b` is found in `file`,
`line - 1` lines further on than in `b` alone. -/
theorem parseProgram_marker {a b fileA file : Bytes} {line : Nat} {P Q : Program}
    {R R' : Vocabulary} (ha : parseProgram a fileA .initial = (.ok P, R))
    (hb : parseProgram b file (Vocabulary.initial.extend R.types []) = (.ok Q, R'))
    (hhash : NoHashLine b) (hline : line ≤ Blank.maxLine)
    (hfile : ∀ x ∈ file, LineMarker.isPlain x = true) :
    parseProgram (a ++ 0x0a :: (LineMarker.text line file ++ 0x0a :: b)) fileA .initial =
      (.ok (P ++ Q.relocate fun p => ⟨file, p.line + (Int64.ofNat line - 1)⟩), R') := by
  obtain ⟨sA, hrunA, hcleanA, rfl⟩ := parseProgram_ok ha
  obtain ⟨sB, hrunB, hcleanB, rfl⟩ := parseProgram_ok hb
  obtain ⟨hgA, hstartA⟩ := iterateWithin_back _ Vocabulary.grown_initial hrunA
  rw [hgA.extend_types] at hrunB
  obtain ⟨hstartB, hword⟩ := program_start hgA hrunB hcleanB
  let M := Placing.moved file (Int64.ofNat line - 1)
  obtain ⟨B, htail, hnext, hlands⟩ := exists_boundary_marker hline hfile hhash hstartB hword
  have hnext : B.next = (start b file sA.vocabulary).scanner.cursor.rest := hnext
  rw [← htail]
  -- the first program, up to its end
  obtain ⟨D, k, t₁, hD, hrun₁, hk, ht₁, hend₁⟩ := program_run_front hrunA hcleanA
    (aligned_start B .same _ Vocabulary.grown_initial trivial rfl (hstartA hcleanA))
  -- the second program, from its first word on, moved as the marker says
  obtain ⟨hrest₁, hlands₁⟩ := ht₁.atEnd hend₁
  have hk : B.next.length < k.length := hk
  rw [hnext] at hk
  have hstart : (Boundary.endOfText.seam M).Aligned (start b file sA.vocabulary) t₁ := by
    refine aligned_endOfText (hrest₁.trans hnext) ht₁.clean ht₁.vocabulary hgA ?_ fun hne =>
      hlands _ hlands₁ hne
    rw [text_start]
    exact hhash
  obtain ⟨E, E', k', t₂, hQ, hE, hrun₂, hk', ht₂, hend₂⟩ :=
    program_front _ k D.reverse hrunB hcleanB hstart hk
  obtain ⟨x, k'', rfl⟩ := List.exists_cons_of_length_pos (Nat.zero_lt_of_lt hk')
  have hrun := hrun₁.trans (hrun₂.trans (iterateWithin_atEnd (ht₂.atEnd hend₂).1 x k'' _))
  have hall : (E'.reverse ++ D.reverse).reverse = P ++ Q.relocate M.left := by
    have hD' : P.map (Definition.relocate fun p => p) = D.map (Definition.relocate fun p => p) :=
      hD
    have hE' : E.map (Definition.relocate M.left) = E'.map (Definition.relocate fun p => p) := hE
    rw [map_relocate_id Definition.relocate_id] at hE'
    rw [map_relocate_id Definition.relocate_id, map_relocate_id Definition.relocate_id] at hD'
    rw [hQ, hD', Program.relocate, List.reverse_nil, List.nil_append, hE']
    simp
  rw [hall] at hrun
  rw [← ht₂.vocabulary]
  exact parseProgram_of_run hrun ht₂.clean

/-- The second text starts with white space and goes over two lines; the last line of the first one
is a comment. -/
theorem parseProgram_marker_typedef :
    let a := ascii "typedef int t; // the end"
    let b := ascii "\n t x;\n t *y;\n"
    let R := (parseProgram a (ascii "a.c") .initial).2
    let line := Blank.maxLine
    NoHashLine b ∧ (∀ x ∈ ascii "b.h", LineMarker.isPlain x = true) ∧ ∃ P Q R',
      parseProgram a (ascii "a.c") .initial = (.ok P, R) ∧
      parseProgram b (ascii "b.h") (Vocabulary.initial.extend R.types []) = (.ok Q, R') ∧
      parseProgram (a ++ 0x0a :: (LineMarker.text line (ascii "b.h") ++ 0x0a :: b)) (ascii "a.c")
        .initial = (.ok (P ++ Q.relocate fun p => ⟨ascii "b.h", p.line + (Int64.ofNat line - 1)⟩),
          R') := by
  intro a b R line
  have hok : ∀ r : Except SyntaxError Program × Vocabulary, r.1.isOk = true →
      ∃ P, r = (.ok P, r.2) := by
    rintro ⟨_ | P, v⟩ h
    · cases h
    · exact ⟨P, rfl⟩
  have hhash : NoHashLine b := by
    unfold NoHashLine
    decide +kernel
  have hfile : ∀ x ∈ ascii "b.h", LineMarker.isPlain x = true := by decide +kernel
  obtain ⟨P, ha⟩ := hok (parseProgram a (ascii "a.c") .initial) (by decide +kernel)
  obtain ⟨Q, hb⟩ := hok (parseProgram b (ascii "b.h") (Vocabulary.initial.extend R.types []))
    (by decide +kernel)
  exact ⟨hhash, hfile, P, Q, _, ha, hb,
    parseProgram_marker ha hb hhash (Nat.le_refl Blank.maxLine) hfile⟩

end Grammar

end MiniC
