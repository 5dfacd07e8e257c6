import MiniC.Proofs.Macro.Spelling
import MiniC.Proofs.Scan.Extension

/-!
# Line markers as texts

A line marker is `#`, a line number and a file name in quotes, with tabs and spaces in front of the
number and between the two. Anything may follow in the same line. A `Marker` is such a text by its
parts. The scanner recognises these texts, up to the end of their line, and no others
(`marker?_text`, `exists_marker_of_marker?`).
-/

namespace MiniC.Scan

open Blank Macro

/-- The parts of a line marker. -/
structure Marker where
  indent : Bytes
  digits : Bytes
  gap : Bytes
  /-- The file name with the quote behind it. -/
  quoted : Bytes
  flags : Bytes
  indent_blank : ∀ b ∈ indent, isTabOrSpace b = true
  digits_ne : digits ≠ []
  digits_digit : ∀ b ∈ digits, isDigit b = true
  /-- The number is a machine integer. -/
  fits : digitsValue digits ≤ maxLine
  gap_ne : gap ≠ []
  gap_blank : ∀ b ∈ gap, isTabOrSpace b = true
  quoted_closed : QuotedBody (ch '"') quoted
  inLine : (0x0a : UInt8) ∉ quoted ++ flags

namespace Marker

/-- The text behind `#`. -/
def parts (m : Marker) : Bytes :=
  m.indent ++ (m.digits ++ (m.gap ++ ch '"' :: (m.quoted ++ m.flags)))

/-- The marker as it is written. -/
def text (m : Marker) : Bytes := ch '#' :: m.parts

/-- The file name between the quotes, with its escapes decoded if they can be. -/
def file (m : Marker) : Bytes := (Quoted.decode? m.quoted.dropLast).getD m.quoted.dropLast

/-- The position on the marker's own line: the line after it has the number. -/
def position (m : Marker) : Position := ⟨m.file, Int64.ofNat (digitsValue m.digits) - 1⟩

variable (m : Marker)

theorem head_gap : ∃ b r, m.gap = b :: r ∧ isTabOrSpace b = true := by
  obtain ⟨b, r, hgap⟩ := List.exists_cons_of_ne_nil m.gap_ne
  exact ⟨b, r, hgap, m.gap_blank b (by rw [hgap]; exact List.mem_cons_self)⟩

theorem dropWhile_parts : m.parts.dropWhile isTabOrSpace =
    m.digits ++ (m.gap ++ ch '"' :: (m.quoted ++ m.flags)) := by
  refine dropWhile_append_stop m.indent_blank ?_
  obtain ⟨b, r, hdigits⟩ := List.exists_cons_of_ne_nil m.digits_ne
  have hb := m.digits_digit b (by rw [hdigits]; exact List.mem_cons_self)
  have hnot : ∀ b, isDigit b = true → isTabOrSpace b = false := forall_byte (by decide +kernel)
  rw [hdigits, List.cons_append, List.head?_cons, Option.any_some, hnot b hb]

/-- A digit does not follow the number. -/
theorem head_behind_digits :
    (m.gap ++ ch '"' :: (m.quoted ++ m.flags)).head?.any isDigit = false := by
  obtain ⟨b, r, hgap, hb⟩ := m.head_gap
  have hnot : ∀ b, isTabOrSpace b = true → isDigit b = false := forall_byte (by decide +kernel)
  rw [hgap, List.cons_append, List.head?_cons, Option.any_some, hnot b hb]

theorem quotedBody?_quoted :
    quotedBody? (ch '"' :: (m.quoted ++ m.flags)) = some m.quoted.dropLast := by
  have hclosed := m.quoted_closed.closedLength?_append (by decide) m.flags 0
  rw [quotedBody?, if_pos rfl, hclosed, Nat.zero_add, Option.map_some,
    List.take_append_of_le_length (Nat.sub_le _ _), List.dropLast_eq_take]

theorem markerParts?_parts : markerParts? m.parts = some (digitsValue m.digits, m.file) := by
  have htake := takeWhile_append_stop m.digits_digit m.head_behind_digits
  have hdrop := dropWhile_append_stop m.digits_digit m.head_behind_digits
  have hgap : (m.gap ++ ch '"' :: (m.quoted ++ m.flags)).dropWhile isTabOrSpace =
      ch '"' :: (m.quoted ++ m.flags) := dropWhile_append_stop m.gap_blank rfl
  have hblank : (m.gap ++ ch '"' :: (m.quoted ++ m.flags)).head?.any isTabOrSpace = true := by
    obtain ⟨b, r, hgap, hb⟩ := m.head_gap
    rw [hgap, List.cons_append, List.head?_cons, Option.any_some, hb]
  unfold markerParts?
  simp only [m.dropWhile_parts, htake, hdrop, hgap, hblank, m.quotedBody?_quoted]
  rw [if_neg (by simp [m.digits_ne, m.fits])]
  rfl

theorem newline_notMem_text : (0x0a : UInt8) ∉ m.text := by
  have hindent : (0x0a : UInt8) ∉ m.indent := fun h => absurd (m.indent_blank _ h) (by decide)
  have hdigits : (0x0a : UInt8) ∉ m.digits := fun h => absurd (m.digits_digit _ h) (by decide)
  have hgap : (0x0a : UInt8) ∉ m.gap := fun h => absurd (m.gap_blank _ h) (by decide)
  rw [text, parts, List.mem_cons, List.mem_append, List.mem_append, List.mem_append, List.mem_cons]
  simp only [not_or]
  exact ⟨by decide, hindent, hdigits, hgap, by decide, m.inLine⟩

/-- **A marker is recognised up to the end of its line.** -/
theorem marker?_text {k : Bytes} (hk : LineEnd k) :
    marker? (m.text ++ k) = some (.marker m.text.length m.position) := by
  have hline : (m.text ++ k).takeWhile (· != 0x0a) = m.text := by
    refine takeWhile_append_stop (fun b hb => ?_) (hk.head_any (by decide))
    rw [bne_iff_ne]
    rintro rfl
    exact m.newline_notMem_text hb
  have hparts : m.text.tail = m.parts := rfl
  rw [text, List.cons_append, marker?, if_pos rfl]
  dsimp only
  rw [← List.cons_append, ← text, hline, hparts, m.markerParts?_parts]
  rfl

end Marker

theorem exists_quoted_of_quotedBody? {s body : Bytes} (h : quotedBody? s = some body) :
    ∃ quoted flags, s = ch '"' :: (quoted ++ flags) ∧ QuotedBody (ch '"') quoted ∧
      body = quoted.dropLast := by
  cases s with
  | nil => cases h
  | cons b rest =>
    rw [quotedBody?] at h
    split_ifs at h with hb
    subst hb
    obtain ⟨n, hn, rfl⟩ := Option.map_eq_some_iff.1 h
    obtain ⟨quoted, flags, rfl, hquoted, rfl⟩ := exists_quotedBody hn
    refine ⟨quoted, flags, rfl, hquoted, ?_⟩
    rw [Nat.zero_add, List.take_append_of_le_length (Nat.sub_le _ _), List.dropLast_eq_take]

/-- What is read as the parts of a marker are the parts of a marker. -/
theorem exists_marker_of_markerParts? {s file : Bytes} {line : Nat} (hs : (0x0a : UInt8) ∉ s)
    (h : markerParts? s = some (line, file)) :
    ∃ m : Marker, s = m.parts ∧ line = digitsValue m.digits ∧ file = m.file := by
  set indent := s.takeWhile isTabOrSpace with hindent
  set number := s.dropWhile isTabOrSpace with hnumber
  set digits := number.takeWhile isDigit with hdigits
  set after := number.dropWhile isDigit with hafter
  set gap := after.takeWhile isTabOrSpace with hgap
  unfold markerParts? at h
  simp only [← hnumber, ← hdigits, ← hafter] at h
  split_ifs at h with hbad
  · cases h
  simp only [Bool.or_eq_true, decide_eq_true_eq, Bool.not_eq_true', not_or, Bool.not_eq_false,
    Nat.not_lt] at hbad
  obtain ⟨⟨hne, hblank⟩, hfits⟩ := hbad
  obtain ⟨body, hbody, heq⟩ := Option.bind_eq_some_iff.1 h
  obtain ⟨quoted, flags, hquote, hquoted, rfl⟩ := exists_quoted_of_quotedBody? hbody
  have hsplit : s = indent ++ (digits ++ (gap ++ ch '"' :: (quoted ++ flags))) := by
    rw [← hquote, List.takeWhile_append_dropWhile, List.takeWhile_append_dropWhile,
      List.takeWhile_append_dropWhile]
  have hgap_ne : gap ≠ [] := by
    intro hnil
    cases hr : after with
    | nil => rw [hr] at hblank; cases hblank
    | cons b r =>
      have hb : isTabOrSpace b = true := by rw [hr] at hblank; exact hblank
      rw [hgap, hr, List.takeWhile_cons_of_pos hb] at hnil
      cases hnil
  have hline : (0x0a : UInt8) ∉ quoted ++ flags := fun hmem => hs <| by
    rw [hsplit]
    exact List.mem_append_right _ (List.mem_append_right _ (List.mem_append_right _
      (List.mem_cons_of_mem _ hmem)))
  refine ⟨⟨indent, digits, gap, quoted, flags, fun b hb => List.mem_takeWhile_imp hb, hne,
    fun b hb => List.mem_takeWhile_imp hb, hfits, hgap_ne, fun b hb => List.mem_takeWhile_imp hb,
    hquoted, hline⟩, hsplit, ?_⟩
  cases heq
  exact ⟨rfl, rfl⟩

/-- **Only markers are recognised.** -/
theorem exists_marker_of_marker? {s : Bytes} {b : Blank} (h : marker? s = some b) :
    ∃ (m : Marker) (k : Bytes), s = m.text ++ k ∧ LineEnd k ∧
      b = .marker m.text.length m.position := by
  obtain ⟨rest, line, file, rfl, hparts, rfl⟩ := marker?_eq_some h
  obtain ⟨m, hm, rfl, rfl⟩ := exists_marker_of_markerParts?
    (fun hn => absurd (List.mem_takeWhile_imp hn) (by decide)) hparts
  refine ⟨m, rest.dropWhile (· != 0x0a), ?_, lineEnd_dropWhile rest, ?_⟩
  · rw [Marker.text, ← hm, List.cons_append, List.takeWhile_append_dropWhile]
  · rw [hm]
    rfl

end MiniC.Scan
