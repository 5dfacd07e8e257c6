import MiniC.Text.ByteClass

/-!
# Facts about classes of bytes

A statement about one byte that can be decided is checked for all 256 of them (`forall_byte`). The
facts below say how the classes of bytes lie to each other.
-/

namespace MiniC

theorem forall_byte {p : UInt8 → Prop} (h : ∀ n : Fin 256, p (.ofFin n)) (b : UInt8) : p b :=
  h b.toFin

theorem isIdentStart_of_isDigit (b : UInt8) : isDigit b = true → isIdentStart b = false :=
  forall_byte (p := fun b => isDigit b = true → isIdentStart b = false) (by decide +kernel) b

/-- The byte starts no blank: it is no white space, no slash and no `#`. -/
def isSolid (b : UInt8) : Bool := !isSpace b && b != ch '/' && b != ch '#'

theorem isSolid_of_isIdent (b : UInt8) : isIdent b = true → isSolid b = true :=
  forall_byte (p := fun b => isIdent b = true → isSolid b = true) (by decide +kernel) b

theorem not_isSpace_of_isIdent {b : UInt8} (h : isIdent b = true) : isSpace b = false := by
  have hsolid := isSolid_of_isIdent b h
  simp only [isSolid, Bool.and_eq_true, Bool.not_eq_true'] at hsolid
  exact hsolid.1.1

theorem isIdent_of_isIdentStart {b : UInt8} (h : isIdentStart b = true) : isIdent b = true := by
  rw [isIdent, h, Bool.true_or]

theorem isIdent_of_isDigit {b : UInt8} (h : isDigit b = true) : isIdent b = true := by
  rw [isIdent, h, Bool.or_true]

theorem head_any_mono {p q : UInt8 → Bool} {s : Bytes} (h : s.head?.any p = true)
    (hpq : ∀ b, p b = true → q b = true) : s.head?.any q = true := by
  cases s with
  | nil => cases h
  | cons b s => exact hpq b h

theorem not_head_any_mono {p q : UInt8 → Bool} {s : Bytes} (h : s.head?.any q = false)
    (hpq : ∀ b, p b = true → q b = true) : s.head?.any p = false := by
  cases hp : s.head?.any p with
  | false => rfl
  | true =>
    rw [head_any_mono hp hpq] at h
    cases h

theorem isIdent_of_isWord {w : Bytes} (h : isWord w = true) : ∀ b ∈ w, isIdent b = true := by
  cases w with
  | nil => exact List.forall_mem_nil _
  | cons b w =>
    rw [isWord, Bool.and_eq_true, List.all_eq_true] at h
    exact List.forall_mem_cons.2 ⟨isIdent_of_isIdentStart h.1, h.2⟩

theorem head_dropWhile {α : Type} {p : α → Bool} (s : List α) :
    (s.dropWhile p).head?.any p = false := by
  have h := List.head?_dropWhile_not p s
  cases hs : (s.dropWhile p).head? with
  | none => rfl
  | some b =>
    rw [hs] at h
    exact h

/-- What is taken ends with the first text, if it does not go on at the front of the second. -/
theorem takeWhile_append_of_head {p : UInt8 → Bool} {k : Bytes} (hk : k.head?.any p = false) :
    ∀ s : Bytes, (s ++ k).takeWhile p = s.takeWhile p
  | [] => by
    cases k with
    | nil => rfl
    | cons b k => exact List.takeWhile_cons_of_neg (Bool.not_eq_true _ ▸ hk)
  | b :: s => by
    by_cases hb : p b = true <;> simp [hb, takeWhile_append_of_head hk s]

theorem dropWhile_append_of_head {p : UInt8 → Bool} {k : Bytes} (hk : k.head?.any p = false) :
    ∀ s : Bytes, (s ++ k).dropWhile p = s.dropWhile p ++ k
  | [] => by
    cases k with
    | nil => rfl
    | cons b k => exact List.dropWhile_cons_of_neg (Bool.not_eq_true _ ▸ hk)
  | b :: s => by
    by_cases hb : p b = true <;> simp [hb, dropWhile_append_of_head hk s]

section Span

variable {p : UInt8 → Bool} {w k : Bytes} (hw : ∀ b ∈ w, p b = true) (hk : k.head?.any p = false)

include hw hk

theorem takeWhile_append_stop : (w ++ k).takeWhile p = w := by
  have hall : w.takeWhile p = w := by
    rw [← List.append_nil w, List.takeWhile_append_of_pos hw, List.takeWhile_nil]
  rw [takeWhile_append_of_head hk, hall]

theorem dropWhile_append_stop : (w ++ k).dropWhile p = k := by
  have hall : w.dropWhile p = [] := by
    rw [← List.append_nil w, List.dropWhile_append_of_pos hw, List.dropWhile_nil]
  rw [dropWhile_append_of_head hk, hall, List.nil_append]

end Span

end MiniC
