import MiniC.Proofs.Scan.Extension
import MiniC.Proofs.Scan.Lookahead
import MiniC.Proofs.Text.Pieces

/-!
# The cursor keeps track of its line

A scanner is driven by a sequence of operations, which may succeed or fail and may go back to any
place that was marked before. `run_follows`: whatever the sequence, the cursor lies within the text,
its byte is the byte of the text at its index, and its line is found by counting the newlines before
the index. A newline at the very end of the text does not count, and line markers set the line
anew, so that the line is only stated for texts in which no line starts with `#`.

The invariant is `Cursor.Follows`. One byte is moved over in `Follows.advance`; all operations move
over bytes and blanks, or back to a place for which the invariant was shown before.
-/

namespace MiniC.Scan

/-! ### Lines -/

/-- No line of the text starts with `#`. -/
def NoHashLine (text : Bytes) : Prop :=
  ∀ line ∈ Bytes.fields 0x0a text, line.head? ≠ some (ch '#')

/-- The number of the line at an index: newlines before the index count, except for a newline at the
end of the text. -/
def lineAt (text : Bytes) (index : Nat) : Nat := 1 + (text.dropLast.take index).count 0x0a

theorem head_fields_hash (s : Bytes) :
    ∃ line ∈ Bytes.fields 0x0a (ch '#' :: s), line.head? = some (ch '#') := by
  have hne : ch '#' ≠ 0x0a := by decide
  obtain ⟨field, more, -, hcons⟩ := fields_cons_of_ne hne s
  exact ⟨ch '#' :: field, by rw [hcons]; exact List.mem_cons_self, rfl⟩

namespace Cursor

variable {c : Cursor} {text file : Bytes}

theorem not_hash_of_atLineStart (h : NoHashLine c.text) (hstart : c.atLineStart = true) :
    c.rest.head? ≠ some (ch '#') := by
  intro hhead
  obtain ⟨s, hs⟩ : ∃ s, c.rest = ch '#' :: s := by
    cases hr : c.rest with
    | nil => rw [hr] at hhead; cases hhead
    | cons b s =>
      rw [hr, List.head?_cons, Option.some.injEq] at hhead
      exact ⟨s, by rw [hhead]⟩
  obtain ⟨line, hline, hhash⟩ := head_fields_hash s
  refine h line ?_ hhash
  rw [Cursor.text, hs]
  cases hb : c.before with
  | nil => exact hline
  | cons b before =>
    rw [atLineStart, hb] at hstart
    obtain rfl : b = 0x0a := by
      simp only [Bool.and_eq_true, beq_iff_eq] at hstart
      exact hstart.1
    obtain ⟨first, more, hfields⟩ := exists_fields_append 0x0a before.reverse (ch '#' :: s)
    rw [List.reverse_cons, List.append_assoc, List.singleton_append, hfields]
    exact List.mem_append_right _ hline

/-! ### The invariant -/

/-- The cursor is a place in the text, and its position tells the line of that place. -/
structure Follows (text file : Bytes) (c : Cursor) : Prop where
  text_eq : c.text = text
  position_eq : NoHashLine text → c.position = ⟨file, Int64.ofNat (lineAt text c.index)⟩

theorem lineAt_succ (front : Bytes) (b : UInt8) (rest : Bytes) :
    lineAt (front ++ b :: rest) (front.length + 1) = lineAt (front ++ b :: rest) front.length +
      if b = 0x0a && !rest.isEmpty then 1 else 0 := by
  cases rest with
  | nil =>
    have hdrop : (front ++ [b]).dropLast = front := List.dropLast_concat
    rw [lineAt, lineAt, hdrop, List.take_length, List.take_of_length_le (Nat.le_succ _)]
    simp
  | cons d rest =>
    have hdrop : (front ++ b :: d :: rest).dropLast = front ++ b :: (d :: rest).dropLast := by
      rw [List.dropLast_append_of_ne_nil (List.cons_ne_nil _ _)]
      rfl
    rw [lineAt, lineAt, hdrop, List.take_append_of_le_length (Nat.le_refl _), List.take_length,
      List.take_length_add_append]
    by_cases hb : b = 0x0a
    · simp [hb]
      omega
    · simp [hb]

theorem Follows.advance (h : c.Follows text file) : c.advance.Follows text file := by
  obtain ⟨before, rest, position⟩ := c
  cases rest with
  | nil => exact h
  | cons b rest =>
    have htext : before.reverse ++ b :: rest = text := h.text_eq
    refine ⟨?_, fun hlines => ?_⟩
    · rw [← htext]
      simp [Cursor.advance, Cursor.text]
    · have hposition := h.position_eq hlines
      have hline := lineAt_succ before.reverse b rest
      rw [htext, List.length_reverse] at hline
      simp only [Cursor.advance, Cursor.index, List.length_cons, hline] at hposition ⊢
      rw [hposition]
      split_ifs
      · rw [Position.nextLine, Int64.ofNat_add]
        rfl
      · rfl

theorem Follows.advanceBy : ∀ (n : Nat) {c : Cursor}, c.Follows text file →
    (c.advanceBy n).Follows text file
  | 0, _, h => h
  | n + 1, _, h => Follows.advanceBy n h.advance

/-- A line marker is only found where a line starts with `#`. -/
theorem hash_of_marker {keep : Bool} {n : Nat} {p : Position}
    (h : c.blank? keep = some (.marker n p)) :
    c.atLineStart = true ∧ c.rest.head? = some (ch '#') := by
  rcases blank?_cases h with hcomment | ⟨-, hspaces | ⟨hstart, hmarker⟩⟩
  · rcases Blank.comment?_cases hcomment with
      ⟨_, _, hline⟩ | ⟨_, _, _, _, hblock⟩ | ⟨_, _, _, hopen⟩
    · cases hline
    · cases hblock
    · cases hopen
  · cases (Blank.spaces?_eq_some hspaces).2
  · obtain ⟨rest, _, _, hrest, -, -⟩ := Blank.marker?_eq_some hmarker
    rw [hrest]
    exact ⟨hstart, rfl⟩

/-- Blanks are bytes that are passed; without markers nothing else changes. -/
theorem Follows.pass {keep : Bool} {b : Blank} (h : c.Follows text file)
    (hb : c.blank? keep = some b) : (c.pass b).Follows text file := by
  cases b with
  | spaces n => exact h.advanceBy n
  | lineComment n => exact h.advanceBy n
  | blockComment n => exact h.advanceBy n
  | openComment => exact h.advanceBy _
  | marker n p =>
    refine ⟨(h.advanceBy n).text_eq, fun hlines => ?_⟩
    obtain ⟨hstart, hhash⟩ := hash_of_marker hb
    rw [← h.text_eq] at hlines
    exact absurd hhash (not_hash_of_atLineStart hlines hstart)

end Cursor

/-! ### Operations -/

/-- What can be done with a scanner. -/
inductive Operation where
  /-- Moves past a word, if the text goes on with it. -/
  | lookahead (word : Bytes) (keepSpaces : Bool)
  | peek (word : Bytes)
  | consume (word : Bytes)
  | identifier (keepSpaces : Bool)
  | number (keepSpaces : Bool)
  | string (keepSpaces : Bool)
  | character
  | escape
  | skipBlanks
  /-- Marks the place of the cursor. -/
  | snapshot
  /-- Moves back to the mark with this number, counted from 0. -/
  | restore (mark : Nat)

/-- A scanner and the places that were marked, in order. -/
structure Marked where
  scanner : Scanner
  marks : List Cursor

namespace Marked

/-- A scanner at the first word of a text, and no marks. -/
def start (text file : Bytes) : Marked := ⟨Scanner.ofText text file, []⟩

/-- Does one operation, whether it succeeds or fails. -/
def perform (m : Marked) : Operation → Marked
  | .lookahead word keep => { m with scanner := (m.scanner.lookahead word keep).2 }
  | .peek word => { m with scanner := (m.scanner.peek word).2 }
  | .consume word => { m with scanner := (m.scanner.consume word).2 }
  | .identifier keep => { m with scanner := (m.scanner.readIdentifier keep).2 }
  | .number keep => { m with scanner := (m.scanner.readNumber keep).2 }
  | .string keep => { m with scanner := (m.scanner.readString keep).2 }
  | .character => { m with scanner := m.scanner.readCharacter.2 }
  | .escape => { m with scanner := m.scanner.readEscape.2 }
  | .skipBlanks => { m with scanner := m.scanner.skipBlanks }
  | .snapshot => { m with marks := m.marks ++ [m.scanner.cursor] }
  | .restore n =>
    match m.marks[n]? with
    | some c => { m with scanner := m.scanner.restore c }
    | none => m

/-- Does operations one after another. -/
def run (m : Marked) (operations : List Operation) : Marked := operations.foldl perform m

end Marked

section Operations
variable {text file : Bytes} {s : Scanner} {m : Marked}

theorem follows_skip (keep : Bool) (h : s.cursor.Follows text file) :
    (s.skip keep).cursor.Follows text file := by
  induction s using Scanner.skip_induction keep with
  | stop s hb =>
    rw [Scanner.skip_of_none hb]
    exact h
  | pass s b hb ih =>
    rw [Scanner.skip_of_some hb]
    exact ih (h.pass hb)

theorem follows_lookahead (word : Bytes) (keep : Bool) (h : s.cursor.Follows text file) :
    (s.lookahead word keep).2.cursor.Follows text file := by
  rw [Scanner.lookahead_eq]
  split_ifs
  · exact follows_skip keep (h.advanceBy word.length)
  · exact h

theorem follows_peek (word : Bytes) (h : s.cursor.Follows text file) :
    (s.peek word).2.cursor.Follows text file := h

theorem follows_consume (word : Bytes) (h : s.cursor.Follows text file) :
    (s.consume word).2.cursor.Follows text file := by
  rw [Scanner.consume_eq]
  split_ifs
  · exact follows_skip false (h.advanceBy word.length)
  · exact h

/-- A reader leaves the cursor behind what it took, even if it refuses the lexeme. -/
theorem follows_read {α : Type} (reader : Bytes → Reading α) {after : Scanner → Scanner}
    (hafter : ∀ s : Scanner, s.cursor.Follows text file → (after s).cursor.Follows text file)
    (h : s.cursor.Follows text file) : (s.read reader after).2.cursor.Follows text file := by
  have hmoved : (s.advanceBy (reader s.cursor.rest).length).cursor.Follows text file :=
    h.advanceBy _
  unfold Scanner.read
  dsimp only
  split
  · exact hafter _ hmoved
  · exact hmoved
  · exact hmoved

/-- The cursor and all marks follow the text. -/
structure Marked.Follows (text file : Bytes) (m : Marked) : Prop where
  cursor : m.scanner.cursor.Follows text file
  marks : ∀ c ∈ m.marks, c.Follows text file

theorem Marked.follows_start (text file : Bytes) : (Marked.start text file).Follows text file := by
  refine ⟨follows_skip false ⟨rfl, fun _ => ?_⟩, fun c hc => absurd hc List.not_mem_nil⟩
  rfl

/-- **One operation keeps track of the text.** -/
theorem Marked.Follows.perform (h : m.Follows text file) (o : Operation) :
    (m.perform o).Follows text file := by
  have hskip : ∀ keep (s : Scanner), s.cursor.Follows text file →
      (s.skip keep).cursor.Follows text file := fun keep _ => follows_skip keep
  cases o with
  | lookahead word keep => exact ⟨follows_lookahead word keep h.cursor, h.marks⟩
  | peek word => exact ⟨follows_peek word h.cursor, h.marks⟩
  | consume word => exact ⟨follows_consume word h.cursor, h.marks⟩
  | identifier keep => exact ⟨follows_read _ (hskip keep) h.cursor, h.marks⟩
  | number keep => exact ⟨follows_read _ (hskip keep) h.cursor, h.marks⟩
  | string keep => exact ⟨follows_read _ (hskip keep) h.cursor, h.marks⟩
  | character => exact ⟨follows_read _ (fun _ hs => hs) h.cursor, h.marks⟩
  | escape => exact ⟨follows_read _ (fun _ hs => hs) h.cursor, h.marks⟩
  | skipBlanks => exact ⟨follows_skip false h.cursor, h.marks⟩
  | snapshot =>
    refine ⟨h.cursor, fun c hc => ?_⟩
    rcases List.mem_append.1 hc with hc | hc
    · exact h.marks c hc
    · rw [List.mem_singleton.1 hc]
      exact h.cursor
  | restore n =>
    unfold Marked.perform
    dsimp only
    split
    · next c hc => exact ⟨h.marks c (List.mem_of_getElem? hc), h.marks⟩
    · exact h

theorem Marked.Follows.run (h : m.Follows text file) (operations : List Operation) :
    (m.run operations).Follows text file := by
  induction operations generalizing m with
  | nil => exact h
  | cons o operations ih => exact ih (h.perform o)

end Operations

/-- The byte at the cursor, and 0 at the end of the text. -/
def Cursor.current (c : Cursor) : UInt8 := c.rest.headD 0

/-- **Cursor and line never drift apart.** After any operations on a text, successful or not, the
cursor is at an index of the text or at its end. At an index its byte is the byte of the text there,
at the end it is 0. If no line of the text starts with `#`, the position is the line that the
newlines before the index lead to, in the file that was given. The line number is exact for every
text whose length is a machine integer. -/
theorem run_follows (text file : Bytes) (operations : List Operation) :
    let c := ((Marked.start text file).run operations).scanner.cursor
    c.index ≤ text.length ∧ (c.atEnd = true ↔ c.index = text.length) ∧
    (c.atEnd = false → text[c.index]? = some c.current) ∧ (c.atEnd = true → c.current = 0) ∧
    (NoHashLine text →
      c.position = ⟨file, Int64.ofNat (1 + (text.dropLast.take c.index).count 0x0a)⟩ ∧
      (text.length ≤ Blank.maxLine →
        c.position.line.toInt = 1 + (text.dropLast.take c.index).count 0x0a)) := by
  intro c
  have h : c.Follows text file := ((Marked.follows_start text file).run operations).cursor
  have hlength : c.index + c.rest.length = text.length := by
    rw [← h.text_eq, Cursor.text, List.length_append, List.length_reverse, Cursor.index]
  have hend : c.atEnd = true ↔ c.rest = [] := List.isEmpty_iff
  refine ⟨by omega, ?_, fun hnot => ?_, fun hat => ?_, fun hlines => ⟨h.position_eq hlines, ?_⟩⟩
  · rw [hend, ← List.length_eq_zero_iff]
    omega
  · cases hr : c.rest with
    | nil =>
      rw [hend.2 hr] at hnot
      cases hnot
    | cons b rest =>
      have hindex : c.index = c.before.reverse.length := List.length_reverse.symm
      rw [← h.text_eq, Cursor.text, hr, hindex, List.getElem?_append_right (Nat.le_refl _),
        Nat.sub_self, Cursor.current, hr]
      rfl
  · rw [Cursor.current, hend.1 hat]
    rfl
  · intro hfits
    rw [h.position_eq hlines]
    have hcount : (text.dropLast.take c.index).count 0x0a ≤ text.length - 1 := by
      refine List.count_le_length.trans ?_
      rw [List.length_take, List.length_dropLast]
      omega
    have hmax : Blank.maxLine = 2 ^ 63 - 1 := rfl
    have hlt : lineAt text c.index < 2 ^ 63 := by
      rw [lineAt]
      omega
    rw [Int64.toInt_ofNat_of_lt hlt, lineAt]
    push_cast
    rfl

end MiniC.Scan
