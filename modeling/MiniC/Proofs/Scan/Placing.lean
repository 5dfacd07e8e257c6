import MiniC.Proofs.Scan.Tracking
import MiniC.Proofs.Syntax.Relocate

/-!
# Positions in step

Two scanners that go through the same text need not agree on where they are: one of them may have
met a line marker before. A `Placing` says how the positions of the first are found again with the
second, and `Placing.Places` that it is so for two cursors. Moving both over the same bytes keeps
it, since both count the same newlines (`Places.advanceBy`), and so do blanks
(`carried_places`). A line marker in the text gives both cursors the same position; where positions
are moved, the text must not hold any.
-/

namespace MiniC

open Scan

/-- How the positions of two readings of a text are compared. -/
inductive Placing where
  /-- Positions do not count. -/
  | anywhere
  /-- They are the same. -/
  | same
  /-- The second reading is in the given file, a fixed number of lines further on. -/
  | moved (file : Bytes) (lines : Int64)

namespace Placing

/-- A position of the first reading, as it is compared. -/
def left : Placing → Position → Position
  | .anywhere => fun _ => .nowhere
  | .same => fun p => p
  | .moved file lines => fun p => ⟨file, p.line + lines⟩

/-- A position of the second reading, as it is compared. -/
def right : Placing → Position → Position
  | .anywhere => fun _ => .nowhere
  | .same => fun p => p
  | .moved _ _ => fun p => p

variable {M : Placing} {p q : Position}

theorem left_nextLine (h : M.left p = M.right q) : M.left p.nextLine = M.right q.nextLine := by
  cases M with
  | anywhere => rfl
  | same => exact congrArg Position.nextLine h
  | moved file lines =>
    have hline : p.line + 1 + lines = p.line + lines + 1 := by
      rw [Int64.add_assoc, Int64.add_comm 1, Int64.add_assoc]
    have hq : (⟨file, p.line + lines⟩ : Position) = q := h
    rw [← hq]
    exact congrArg (Position.mk file) hline

theorem exists_right (M : Placing) (p : Position) : ∃ q, M.left p = M.right q := by
  cases M with
  | anywhere => exact ⟨p, rfl⟩
  | same => exact ⟨p, rfl⟩
  | moved file lines => exact ⟨⟨file, p.line + lines⟩, rfl⟩

/-! ### Trees -/

/-- The trees are equal, with their positions compared. -/
def Like {α : Type} (M : Placing) (relocate : (Position → Position) → α → α) (a b : α) : Prop :=
  relocate M.left a = relocate M.right b

/-- The trees are both missing, or equal with their positions compared. -/
abbrev LikeOption {α : Type} (M : Placing) (relocate : (Position → Position) → α → α) :
    Option α → Option α → Prop :=
  M.Like fun f => Option.map (relocate f)

/-- The trees are equal one by one, with their positions compared. -/
abbrev LikeList {α : Type} (M : Placing) (relocate : (Position → Position) → α → α) :
    List α → List α → Prop :=
  M.Like fun f => List.map (relocate f)

theorem LikeList.reverse {α : Type} {relocate : (Position → Position) → α → α} {l l' : List α}
    (h : M.LikeList relocate l l') : M.LikeList relocate l.reverse l'.reverse := by
  have hmap : l.map (relocate M.left) = l'.map (relocate M.right) := h
  simp only [LikeList, Like, List.map_reverse, hmap]

theorem LikeList.relocateAll {l l' : List Stmt} (h : M.LikeList Stmt.relocate l l') :
    Stmt.relocateAll M.left l = Stmt.relocateAll M.right l' := by
  rw [Stmt.relocateAll_eq_map, Stmt.relocateAll_eq_map]
  exact h

/-! ### Cursors -/

/-- Line markers would undo a move of positions. -/
def Allows : Placing → Bytes → Prop
  | .moved _ _, text => NoHashLine text
  | _, _ => True

/-- The positions of the cursors are found again, unless the first one is at the end of its text,
where newlines are not counted any more. -/
structure Places (M : Placing) (c d : Cursor) : Prop where
  allowed : M.Allows c.text
  position : c.rest ≠ [] → M.left c.position = M.right d.position

end Placing

namespace Scan.Cursor

theorem text_advance (c : Cursor) : c.advance.text = c.text := by
  obtain ⟨before, rest, position⟩ := c
  cases rest with
  | nil => rfl
  | cons b rest => simp [advance, text]

@[simp] theorem text_advanceBy : ∀ (n : Nat) (c : Cursor), (c.advanceBy n).text = c.text
  | 0, _ => rfl
  | n + 1, c => (text_advanceBy n c.advance).trans c.text_advance

@[simp] theorem text_pass (c : Cursor) (b : Blank) : (c.pass b).text = c.text := by
  cases b with
  | marker n p => exact text_advanceBy n c
  | _ => exact text_advanceBy _ c

@[simp] theorem text_skip (keep : Bool) (s : Scanner) :
    (s.skip keep).cursor.text = s.cursor.text := by
  induction s using Scanner.skip_induction keep with
  | stop s hb => rw [Scanner.skip_of_none hb]
  | pass s b hb ih => rw [Scanner.skip_of_some hb, ih, Scanner.cursor_pass, text_pass]

end Scan.Cursor

namespace Placing

variable {M : Placing} {c d : Cursor} {tail : Bytes}

theorem places_anywhere (c d : Cursor) : Placing.anywhere.Places c d := ⟨trivial, fun _ => rfl⟩

/-- At the end of the first text nothing is asked of positions. -/
theorem places_of_rest_nil (ha : M.Allows c.text) (h : c.rest = []) (d : Cursor) :
    M.Places c d :=
  ⟨ha, fun h₀ => absurd h h₀⟩

theorem Places.advance {b : UInt8} {r r' : Bytes} (h : M.Places c d) (hc : c.rest = b :: r)
    (hd : d.rest = b :: r') (hr : r ≠ [] → r' ≠ []) : M.Places c.advance d.advance := by
  have ha : M.Allows c.advance.text := by rw [c.text_advance]; exact h.allowed
  refine ⟨ha, fun hne => ?_⟩
  rw [Cursor.rest_advance, hc, List.tail_cons] at hne
  have hpos := h.position (by rw [hc]; exact List.cons_ne_nil b r)
  have hleft : r.isEmpty = false := List.isEmpty_eq_false_iff.mpr hne
  have hright : r'.isEmpty = false := List.isEmpty_eq_false_iff.mpr (hr hne)
  simp only [Cursor.advance, hc, hd, hleft, hright]
  split_ifs
  · exact left_nextLine hpos
  · exact hpos

/-- **Both cursors count the same newlines.** -/
theorem Places.advanceBy : ∀ (n : Nat) {c d : Cursor}, M.Places c d → d.rest = c.rest ++ tail →
    M.Places (c.advanceBy n) (d.advanceBy n)
  | 0, _, _, h, _ => h
  | n + 1, c, d, h, hd => by
    cases hr : c.rest with
    | nil =>
      refine places_of_rest_nil ?_ ?_ _
      · rw [Cursor.text_advanceBy]
        exact h.allowed
      · rw [Cursor.rest_advanceBy, hr, List.drop_nil]
    | cons b r =>
      rw [hr] at hd
      have hnext : d.advance.rest = c.advance.rest ++ tail := by
        rw [Cursor.rest_advance, Cursor.rest_advance, hd, hr]
        rfl
      have hstep := h.advance hr hd fun hne => List.append_ne_nil_of_left_ne_nil hne tail
      exact hstep.advanceBy n hnext

/-- In front of a common part of their texts that goes on further, whatever stands behind it. -/
theorem Places.advanceBy_front {k k' : Bytes} : ∀ {n : Nat} {q : Bytes} {c d : Cursor},
    M.Places c d → c.rest = q ++ k → d.rest = q ++ k' → n < q.length →
      M.Places (c.advanceBy n) (d.advanceBy n)
  | 0, _, _, _, h, _, _, _ => h
  | n + 1, [], _, _, _, _, _, hn => absurd hn (Nat.not_lt_zero _)
  | n + 1, b :: q, c, d, h, hc, hd, hn => by
    rw [List.length_cons, Nat.add_lt_add_iff_right] at hn
    have hne : q ++ k' ≠ [] :=
      List.append_ne_nil_of_left_ne_nil (List.ne_nil_of_length_pos (by omega)) k'
    have hc' : c.advance.rest = q ++ k := by rw [Cursor.rest_advance, hc]; rfl
    have hd' : d.advance.rest = q ++ k' := by rw [Cursor.rest_advance, hd]; rfl
    exact (h.advance hc hd fun _ => hne).advanceBy_front hc' hd' hn

/-- A blank that both pass leaves them at matching positions. -/
theorem carried_places (M : Placing) (tail : Bytes) : Cursor.Carried tail M.Places := by
  intro c d keep b hext hb ho h
  cases b with
  | spaces n => exact h.advanceBy n hext.rest
  | lineComment n => exact h.advanceBy n hext.rest
  | blockComment n => exact h.advanceBy n hext.rest
  | openComment => exact absurd rfl ho
  | marker n p =>
    refine ⟨(h.advanceBy n hext.rest).allowed, fun _ => ?_⟩
    cases M with
    | anywhere => rfl
    | same => rfl
    | moved file lines =>
      obtain ⟨hstart, hhash⟩ := Cursor.hash_of_marker hb
      exact absurd hhash (Cursor.not_hash_of_atLineStart h.allowed hstart)

end Placing

end MiniC
