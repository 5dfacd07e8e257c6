import Mathlib.Data.List.Basic
import Mathlib.Data.List.TakeWhile
import MiniC.Proofs.Text.ByteClass
import MiniC.Proofs.Text.Gather
import MiniC.Scan.Lexeme

/-!
# Lexemes and what follows them

A lexeme ends where its reader says, and what stands behind it does not matter as long as it cannot
belong to it. Two texts are compared that agree in front and go on with one of the `stopBytes`: an
identifier, a number or a string is read from one as from the other (`Local`). A string needs its
closing quote for that, and an escape sequence the bytes behind its backslash; a text that breaks
off before them is refused.
-/

namespace MiniC.Scan

/-- Bytes that no identifier and no number goes on with: the end of a line, and what may stand where
a line goes on that ended before. -/
def stopBytes : Bytes := 0x0a :: ascii "/?\\"

/-- The text is empty or starts with a byte that no identifier and no number goes on with. -/
def Stops (k : Bytes) : Prop := k.head?.all stopBytes.contains = true

/-- Bytes where two texts may part: one of them may have a comment or a line marker there. -/
def doubtfulBytes : Bytes := ascii "/#?\\"

/-- The text is empty or starts with a byte where two texts may part. -/
def Doubtful (s : Bytes) : Prop := s.head?.all doubtfulBytes.contains = true

namespace Stops

variable {k : Bytes} {p : UInt8 → Bool}

theorem head_any (h : Stops k) (hp : stopBytes.any p = false) : k.head?.any p = false := by
  cases k with
  | nil => rfl
  | cons b k =>
    have hb : b ∈ stopBytes := List.contains_iff_mem.1 h
    exact Bool.eq_false_iff.2 (List.any_eq_false.1 hp b hb)

theorem takeWhile_append (h : Stops k) (hp : stopBytes.any p = false) (s : Bytes) :
    (s ++ k).takeWhile p = s.takeWhile p :=
  takeWhile_append_of_head (h.head_any hp) s

theorem dropWhile_append (h : Stops k) (hp : stopBytes.any p = false) (s : Bytes) :
    (s ++ k).dropWhile p = s.dropWhile p ++ k :=
  dropWhile_append_of_head (h.head_any hp) s

end Stops

/-- A text that starts with a byte of the class is not doubtful, if no doubtful byte is in it. -/
theorem not_doubtful {p : UInt8 → Bool} {s : Bytes} (h : s.head?.any p = true)
    (hp : doubtfulBytes.any p = false) : ¬ Doubtful s := by
  cases s with
  | nil => cases h
  | cons b s =>
    intro hs
    have hb : b ∈ doubtfulBytes := List.contains_iff_mem.1 hs
    exact List.any_eq_false.1 hp b hb h

section Readers

variable {α : Type} {reader : Bytes → Reading α}

/-- The reader takes one byte at least, and only bytes that are there. -/
def TakesBytes (reader : Bytes → Reading α) : Prop :=
  ∀ ⦃s : Bytes⦄ ⦃n : Nat⦄ ⦃a : α⦄, reader s = ⟨n, .ok a⟩ → 0 < n ∧ n ≤ s.length

/-- The reader starts where texts do not part, takes no question marks at the end of a text, and
takes the same bytes whatever stops the text behind them. -/
structure Local (reader : Bytes → Reading α) : Prop where
  takes : TakesBytes reader
  head : ∀ ⦃s : Bytes⦄ ⦃n : Nat⦄ ⦃a : α⦄, reader s = ⟨n, .ok a⟩ → ¬ Doubtful s
  within : ∀ ⦃q k : Bytes⦄ ⦃n : Nat⦄ ⦃a : α⦄, (∀ b ∈ k, b = ch '?') →
    reader (q ++ k) = ⟨n, .ok a⟩ → n ≤ q.length
  replace : ∀ ⦃q k k' : Bytes⦄ ⦃n : Nat⦄ ⦃a : α⦄, Stops k → Stops k' → n ≤ q.length →
    reader (q ++ k) = ⟨n, .ok a⟩ → reader (q ++ k') = ⟨n, .ok a⟩

theorem stops_of_marks {k : Bytes} (h : ∀ b ∈ k, b = ch '?') : Stops k := by
  cases k with
  | nil => rfl
  | cons b k =>
    rw [h b List.mem_cons_self]
    rfl

/-- A text that ends with question marks where the reader starts has something in front of them. -/
theorem front_ne_nil_of_marks {q k : Bytes} (h : ¬ Doubtful (q ++ k)) (hk : ∀ b ∈ k, b = ch '?') :
    q ≠ [] := by
  rintro rfl
  refine h ?_
  cases k with
  | nil => rfl
  | cons b k =>
    rw [hk b List.mem_cons_self]
    rfl

/-- A reader that does not see what stops the text at all. -/
theorem Local.of_append (htakes : TakesBytes reader)
    (hhead : ∀ ⦃s n a⦄, reader s = ⟨n, .ok a⟩ → ¬ Doubtful s)
    (happend : ∀ ⦃q k : Bytes⦄, q ≠ [] → Stops k → reader (q ++ k) = reader q) : Local reader where
  takes := htakes
  head := hhead
  within := by
    intro q k n a hk h
    rw [happend (front_ne_nil_of_marks (hhead h) hk) (stops_of_marks hk)] at h
    exact (htakes h).2
  replace := by
    intro q k k' n a hk hk' hn h
    have hq : q ≠ [] := List.ne_nil_of_length_pos ((htakes h).1.trans_le hn)
    rwa [happend hq hk', ← happend hq hk]

end Readers

namespace Lexeme

variable {k s : Bytes}

/-- An identifier is taken as far as it goes. -/
theorem identifier_eq_ok {n : Nat} {a : Bytes} (h : identifier s = ⟨n, .ok a⟩) :
    s.head?.any isIdentStart = true ∧ n = (s.takeWhile isIdent).length ∧
      a = s.takeWhile isIdent := by
  rw [identifier] at h
  split_ifs at h with hs
  · cases h
    exact ⟨hs, rfl, rfl⟩
  · cases h

theorem local_identifier : Local identifier := by
  refine .of_append ?_ ?_ ?_
  · intro s n a h
    obtain ⟨hs, rfl, -⟩ := identifier_eq_ok h
    refine ⟨?_, (List.takeWhile_prefix isIdent).length_le⟩
    cases s with
    | nil => cases hs
    | cons b rest =>
      have hb : isIdentStart b = true := hs
      simp [isIdent_of_isIdentStart hb]
  · intro s n a h
    exact not_doubtful (identifier_eq_ok h).1 (by decide)
  · intro q k hq hk
    rw [identifier, identifier, List.head?_append_of_ne_nil _ hq, hk.takeWhile_append (by decide)]

theorem isWord_of_identifier {n : Nat} {a : Bytes} (h : identifier s = ⟨n, .ok a⟩) :
    isWord a = true := by
  obtain ⟨hs, -, rfl⟩ := identifier_eq_ok h
  cases s with
  | nil => cases hs
  | cons b rest =>
    have hb : isIdentStart b = true := hs
    rw [List.takeWhile_cons_of_pos (isIdent_of_isIdentStart hb), isWord, hb, Bool.true_and]
    exact List.all_eq_true.mpr fun x hx => List.mem_takeWhile_imp hx

/-! ### Numbers -/

theorem numberFrom_append (hk : Stops k) (m : Nat) (reported digits after : Bytes)
    (value? : Option Binary64) :
    numberFrom m reported digits (after ++ k) value? =
      numberFrom m reported digits after value? := by
  simp only [numberFrom, hk.takeWhile_append (p := isNumberSuffix) (by decide)]

theorem isHexNumber_append (hk : Stops k) (hs : s ≠ []) : isHexNumber (s ++ k) = isHexNumber s := by
  match s with
  | [] => exact absurd rfl hs
  | [b] =>
    cases k with
    | nil => rfl
    | cons c k =>
      have hc : (c == ch 'x' || c == ch 'X') = false :=
        hk.head_any (p := fun c => c == ch 'x' || c == ch 'X') (by decide)
      rw [List.singleton_append, isHexNumber, hc, Bool.and_false]
      rfl
  | b :: c :: rest => rfl

theorem number_append (hs : s ≠ []) (hk : Stops k) : number (s ++ k) = number s := by
  have hhead : (s ++ k).head? = s.head? := List.head?_append_of_ne_nil s hs
  rw [number, number, hhead, isHexNumber_append hk hs]
  split_ifs with hd hx
  · rfl
  · have h₂ : 2 ≤ s.length := by
      match s with
      | [] => cases hx
      | [_] => cases hx
      | _ :: _ :: _ => simp
    rw [List.drop_append_of_le_length h₂]
    simp only [hk.takeWhile_append (p := isHexDigit) (by decide),
      hk.dropWhile_append (p := isHexDigit) (by decide), numberFrom_append hk]
  · simp only [hk.takeWhile_append (p := isDecimalPart) (by decide),
      hk.dropWhile_append (p := isDecimalPart) (by decide), numberFrom_append hk]

theorem length_numberFrom_le (p : UInt8 → Bool) (k : Nat) (t s : Bytes)
    (value? : Option Binary64) :
    (numberFrom k t (s.takeWhile p) (s.dropWhile p) value?).length ≤ k + s.length := by
  have h₁ := congrArg List.length (List.takeWhile_append_dropWhile (p := p) (l := s))
  have h₂ := (List.takeWhile_prefix isNumberSuffix (l := s.dropWhile p)).length_le
  rw [List.length_append] at h₁
  simp only [numberFrom]
  omega

theorem takes_number : TakesBytes number := by
  intro s n a h
  cases s with
  | nil => cases h
  | cons b rest =>
    rw [number] at h
    split_ifs at h with hd hx
    · cases h
    · have hlen := congrArg Reading.length h
      have hle := length_numberFrom_le isHexDigit 2
        (ascii "0x" ++ ((b :: rest).drop 2).takeWhile isHexDigit) ((b :: rest).drop 2)
        (hexNumber? (((b :: rest).drop 2).takeWhile isHexDigit))
      have h₂ : 2 ≤ (b :: rest).length := by
        cases rest with
        | nil => cases hx
        | cons c rest => simp
      rw [hlen, List.length_drop] at hle
      simp only [numberFrom] at hlen hle
      omega
    · have hlen := congrArg Reading.length h
      have hle := length_numberFrom_le isDecimalPart 0 ((b :: rest).takeWhile isDecimalPart)
        (b :: rest) (Numeral.finite? ((b :: rest).takeWhile isDecimalPart))
      have hb : isDecimalPart b = true := by
        have hb : isDigit b = true := by simpa using hd
        rw [isDecimalPart, hb, Bool.true_or]
      rw [hlen] at hle
      simp only [numberFrom, List.takeWhile_cons_of_pos hb, List.length_cons] at hlen hle ⊢
      omega

theorem local_number : Local number := by
  refine .of_append takes_number ?_ fun q k hq hk => number_append hq hk
  intro s n a h
  have hs : s.head?.any isDigit = true := by
    by_contra hs
    rw [number, if_pos (by simpa using hs)] at h
    cases h
  exact not_doubtful hs (by decide)

/-! ### Characters -/

theorem escape_append (hs : s ≠ []) (hk : Stops k) : escape (s ++ k) = escape s := by
  cases s with
  | nil => exact absurd rfl hs
  | cons b rest =>
    have hoct : ((b :: rest ++ k).take 3).takeWhile isOctalDigit =
        ((b :: rest).take 3).takeWhile isOctalDigit := by
      rw [← List.take_takeWhile, ← List.take_takeWhile, hk.takeWhile_append (by decide)]
    rw [List.cons_append] at hoct
    rw [List.cons_append, escape, escape, hk.takeWhile_append (by decide), hoct]

theorem takes_escape : TakesBytes escape := by
  intro s n a h
  cases s with
  | nil => cases h
  | cons b rest =>
    rw [escape] at h
    split_ifs at h with hx ho
    · cases h
      have := (List.takeWhile_prefix isHexDigit (l := rest)).length_le
      exact ⟨by omega, by rw [List.length_cons]; omega⟩
    · cases h
      refine ⟨by simp [ho], ?_⟩
      exact (List.takeWhile_prefix isOctalDigit).length_le.trans (List.length_take_le' 3 _)
    · cases he : simpleEscape? b with
      | none => rw [he] at h; cases h
      | some c =>
        rw [he] at h
        cases h
        exact ⟨by omega, by simp⟩

theorem takes_character : TakesBytes character := by
  intro s n a h
  cases s with
  | nil => cases h
  | cons b rest =>
    rw [character] at h
    split_ifs at h with hb
    · obtain ⟨hn, ha⟩ := Reading.mk.inj h
      have he : escape rest = ⟨(escape rest).length, .ok a⟩ := by rw [← ha]
      obtain ⟨h₀, hle⟩ := takes_escape he
      rw [List.length_cons]
      omega
    · cases h
      exact ⟨by omega, by simp⟩

/-- A character is the same in both texts, if they agree in all of its bytes. -/
theorem character_replace {q k' : Bytes} {n : Nat} {c : UInt8} (hk : Stops k) (hk' : Stops k')
    (hn : n ≤ q.length) (h : character (q ++ k) = ⟨n, .ok c⟩) :
    character (q ++ k') = ⟨n, .ok c⟩ := by
  cases q with
  | nil => exact absurd (takes_character h).1 (Nat.not_lt.2 hn)
  | cons b rest =>
    rw [List.cons_append, character] at h ⊢
    split_ifs at h ⊢ with hb
    · cases rest with
      | nil =>
        -- the escape sequence would not be in front of the part where the texts agree
        obtain ⟨hlength, hc⟩ := Reading.mk.inj h
        have he : escape ([] ++ k) = ⟨(escape ([] ++ k)).length, .ok c⟩ := by rw [← hc]
        have := (takes_escape he).1
        simp only [List.length_cons, List.length_nil] at hn
        omega
      | cons d rest =>
        rw [escape_append (List.cons_ne_nil d rest) hk] at h
        rw [escape_append (List.cons_ne_nil d rest) hk']
        exact h
    · exact h

/-! ### Strings -/

theorem stringNext?_eq_some {k k' : Nat} {s s' : Bytes} {c : UInt8}
    (h : stringNext? (k, s) = some (c, (k', s'))) : s.head? ≠ some (ch '"') ∧
      ∃ n, character s = ⟨n, .ok c⟩ ∧ k' = k + n ∧ s' = s.drop n := by
  cases s with
  | nil => cases h
  | cons b rest =>
    simp only [stringNext?] at h
    split_ifs at h with hb
    cases hc : (character (b :: rest)).result with
    | error e =>
      rw [hc] at h
      cases h
    | ok c' =>
      rw [hc] at h
      cases h
      refine ⟨fun hq => hb (Option.some.inj hq), (character (b :: rest)).length, ?_, rfl, rfl⟩
      rw [← hc]

theorem stringNext?_of_character {s : Bytes} {n : Nat} {c : UInt8} (hs : s.head? ≠ some (ch '"'))
    (h : character s = ⟨n, .ok c⟩) (k : Nat) :
    stringNext? (k, s) = some (c, (k + n, s.drop n)) := by
  cases s with
  | nil => cases h
  | cons b rest =>
    have hb : b ≠ ch '"' := fun hb => hs (congrArg some hb)
    simp [stringNext?, hb, h]

theorem length_stringNext?_lt (r : Nat × Bytes) (c : UInt8) (r' : Nat × Bytes)
    (h : stringNext? r = some (c, r')) : r'.2.length < r.2.length := by
  obtain ⟨-, n, hc, -, hs⟩ := stringNext?_eq_some h
  have hn := takes_character hc
  rw [hs, List.length_drop]
  omega

/-- A string is read up to the point where no character is left. -/
theorem string_of_gathered {s text : Bytes} {stop : Nat × Bytes}
    (h : Gathered stringNext? (1, s) text stop) : string (ch '"' :: s) = stringEnd text stop := by
  have hgather : gather stringNext? s [] (1, s) = (text, stop) :=
    h.gather_eq length_stringNext?_lt (Nat.le_refl _)
  rw [string, if_pos rfl, hgather]

theorem exists_string_gathered (s : Bytes) : ∃ text stop,
    Gathered stringNext? (1, s) text stop ∧ string (ch '"' :: s) = stringEnd text stop := by
  obtain ⟨text, stop, h⟩ := exists_gathered length_stringNext?_lt (1, s)
  exact ⟨text, stop, h, string_of_gathered h⟩

/-- A string that was read ends at a quote. -/
theorem exists_gathered_of_string {s text : Bytes} {n : Nat}
    (h : string (ch '"' :: s) = ⟨n, .ok text⟩) :
    ∃ m k, Gathered stringNext? (1, s) text (m, ch '"' :: k) := by
  obtain ⟨text', ⟨m, rest⟩, hrun, hstring⟩ := exists_string_gathered s
  rw [hstring] at h
  cases rest with
  | nil => cases h
  | cons b k =>
    simp only [stringEnd] at h
    split_ifs at h with hb
    · cases h
      exact ⟨m, k, hb ▸ hrun⟩
    · cases h

/-- The bytes taken and the bytes left are those of the text. -/
theorem gathered_suffix {r stop : Nat × Bytes} {text : Bytes}
    (h : Gathered stringNext? r text stop) :
    stop.2 <:+ r.2 ∧ stop.1 + stop.2.length = r.1 + r.2.length := by
  induction h with
  | stop _ => exact ⟨List.suffix_rfl, rfl⟩
  | @take r r' stop c text hnext _ ih =>
    have hpair : stringNext? r = some (c, (r'.1, r'.2)) := hnext
    obtain ⟨-, n, hc, hr₁, hr₂⟩ := stringNext?_eq_some hpair
    have hn := (takes_character hc).2
    have hlength : r'.1 + r'.2.length = r.1 + r.2.length := by
      rw [hr₁, hr₂, List.length_drop]
      omega
    exact ⟨ih.1.trans (hr₂ ▸ List.drop_suffix n r.2), ih.2.trans hlength⟩

/-- A string that was read starts with a quote and ends with one. -/
theorem exists_of_string {text : Bytes} {n : Nat} (h : string s = ⟨n, .ok text⟩) :
    ∃ rest m y, s = ch '"' :: rest ∧ n = m + 1 ∧ m + (y.length + 1) = s.length ∧
      Gathered stringNext? (1, rest) text (m, ch '"' :: y) := by
  cases s with
  | nil => cases h
  | cons b rest =>
    have hb : b = ch '"' := by
      by_contra hb
      rw [string, if_neg hb] at h
      cases h
    subst hb
    obtain ⟨m, y, hrun⟩ := exists_gathered_of_string h
    have hlength : m + (y.length + 1) = 1 + rest.length := (gathered_suffix hrun).2
    rw [string_of_gathered hrun] at h
    refine ⟨rest, m, y, rfl, (congrArg Reading.length h).symm, ?_, hrun⟩
    rw [hlength, List.length_cons, Nat.add_comm]

theorem takes_string : TakesBytes string := by
  intro s n a h
  obtain ⟨rest, m, y, -, rfl, hlength, -⟩ := exists_of_string h
  omega

/-- The characters up to the closing quote are the same in both texts, if the quote stands where
they agree. -/
theorem gathered_replace {k' : Bytes} (hk : Stops k) (hk' : Stops k') {r stop : Nat × Bytes}
    {text : Bytes} (h : Gathered stringNext? r text stop)
    (hstop : stop.2.head? = some (ch '"')) : ∀ q : Bytes, r.2 = q ++ k → k.length < stop.2.length →
      ∃ p, Gathered stringNext? (r.1, q ++ k') text (stop.1, ch '"' :: p) := by
  induction h with
  | @stop r _ =>
    intro q hr hlt
    obtain ⟨y, hy⟩ := List.head?_eq_some_iff.1 hstop
    rw [hy] at hr hlt
    cases q with
    | nil =>
      rw [hr, List.nil_append] at hlt
      exact absurd hlt (Nat.lt_irrefl _)
    | cons b q =>
      obtain ⟨rfl, -⟩ := List.cons.inj hr
      exact ⟨q ++ k', .stop rfl⟩
  | @take r r' stop c text hnext hrun ih =>
    intro q hr hlt
    have hpair : stringNext? r = some (c, (r'.1, r'.2)) := hnext
    obtain ⟨hquote, n, hc, hr₁, hr₂⟩ := stringNext?_eq_some hpair
    rw [hr] at hquote hc hr₂
    have hle := (gathered_suffix hrun).1.length_le
    have hn : n < q.length := by
      rw [hr₂, List.length_drop, List.length_append] at hle
      omega
    have hq : q ≠ [] := List.ne_nil_of_length_pos (by omega)
    rw [List.drop_append_of_le_length hn.le] at hr₂
    obtain ⟨p, hrest⟩ := ih hstop (q.drop n) hr₂ hlt
    have hquote' : (q ++ k').head? ≠ some (ch '"') := by
      rwa [List.head?_append_of_ne_nil _ hq] at hquote ⊢
    have hnext' := stringNext?_of_character hquote' (character_replace hk hk' hn.le hc) r.1
    rw [List.drop_append_of_le_length hn.le, ← hr₁] at hnext'
    exact ⟨p, .take hnext' hrest⟩

theorem local_string : Local string where
  takes := takes_string
  head := by
    intro s n a h
    obtain ⟨rest, m, y, rfl, -⟩ := exists_of_string h
    exact not_doubtful (p := (· == ch '"')) rfl (by decide)
  within := by
    intro q k n a hk h
    obtain ⟨rest, m, y, hs, rfl, hlength, hrun⟩ := exists_of_string h
    rw [List.length_append] at hlength
    by_contra hn
    -- the closing quote would be one of the question marks
    have hsuffix : ch '"' :: y <:+ q ++ k :=
      (gathered_suffix hrun).1.trans (hs ▸ List.suffix_cons (ch '"') rest)
    have hmark : ch '"' :: y <:+ k :=
      List.suffix_of_suffix_length_le hsuffix (List.suffix_append q k) (by
        rw [List.length_cons]
        omega)
    exact absurd (hk _ (hmark.subset List.mem_cons_self)) (by decide)
  replace := by
    intro q k k' n a hk hk' hn h
    obtain ⟨rest, m, y, hs, rfl, hlength, hrun⟩ := exists_of_string h
    rw [List.length_append] at hlength
    cases q with
    | nil => simp at hn
    | cons b q =>
      obtain ⟨rfl, rfl⟩ := List.cons.inj hs
      have hlt : k.length < (ch '"' :: y).length := by
        rw [List.length_cons]
        omega
      obtain ⟨p, hrun'⟩ := gathered_replace hk hk' hrun rfl q rfl hlt
      rw [List.cons_append, string_of_gathered hrun']
      rfl

end Lexeme

end MiniC.Scan
