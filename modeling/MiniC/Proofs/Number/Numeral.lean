import MiniC.Number.Numeral
import MiniC.Proofs.Number.Rounding
import MiniC.Proofs.Text.Quoted
import MiniC.Scan.Lexeme

/-!
# Reading numerals back

The text of a decimal says which number it is, and where it ends: `scan` reads digits, a point with
digits behind it, and an exponent part (`scan_ofDecimal`). A point behind a text of digits alone is
left unread unless a digit follows it, and only then does the numeral go on. So the numeral of a
finite value gives the value back (`scan_text`).
-/

namespace MiniC

/-! ### Digits -/

theorem foldl_digits (s : Bytes) (n : ℕ) :
    s.foldl (fun n b => 10 * n + (b.toNat - 48)) n = n * 10 ^ s.length + digitsValue s := by
  induction s generalizing n with
  | nil => simp [digitsValue]
  | cons b s ih =>
    rw [digitsValue, List.foldl_cons, List.foldl_cons, ih, ih (10 * 0 + _), List.length_cons]
    ring

theorem digitsValue_append (s t : Bytes) :
    digitsValue (s ++ t) = digitsValue s * 10 ^ t.length + digitsValue t := by
  rw [digitsValue, List.foldl_append, foldl_digits t]
  rfl

theorem digitsValue_replicate (n : ℕ) : digitsValue (List.replicate n (ch '0')) = 0 := by
  induction n with
  | zero => rfl
  | succ n ih => exact ih

theorem isDigit_zeros (n : ℕ) : ∀ b ∈ List.replicate n (ch '0'), isDigit b = true := by
  intro b hb
  rw [List.eq_of_mem_replicate hb]
  decide

namespace Numeral

/-! ### Scanning -/

/-- A point and a digit stand in front: a numeral of digits would go on here. -/
def isPlaces (s : Bytes) : Bool := s.head? == some (ch '.') && s.tail.head?.any isDigit

/-- The digits behind a point, and the text after them. -/
def placesOf (s : Bytes) : Bytes × Bytes :=
  if isPlaces s then (s.tail.takeWhile isDigit, s.tail.dropWhile isDigit) else ([], s)

/-- The value of an exponent part, and the text after it. -/
def exponentOf (s : Bytes) : ℤ × Bytes :=
  match s with
  | b :: c :: rest =>
    if b = ch 'e' then
      ((if c = ch '-' then -1 else 1) * (digitsValue (rest.takeWhile isDigit) : ℤ),
        rest.dropWhile isDigit)
    else (0, s)
  | _ => (0, s)

/-- The number that a text starts with, and the text after it. -/
def scan (s : Bytes) : ℚ × Bytes :=
  let whole := s.takeWhile isDigit
  let places := placesOf (s.dropWhile isDigit)
  let exponent := exponentOf places.2
  (digitsValue (whole ++ places.1) * (10 : ℚ) ^ (exponent.1 - places.1.length), exponent.2)

section Parts

variable {w k : Bytes}

theorem placesOf_point (hw : ∀ b ∈ w, isDigit b = true) (hne : w ≠ [])
    (hk : k.head?.any isDigit = false) : placesOf (ch '.' :: w ++ k) = (w, k) := by
  have hplaces : isPlaces (ch '.' :: w ++ k) = true := by
    cases w with
    | nil => exact absurd rfl hne
    | cons b w => simpa [isPlaces] using hw b List.mem_cons_self
  rw [placesOf, if_pos hplaces, List.cons_append, List.tail_cons, takeWhile_append_stop hw hk,
    dropWhile_append_stop hw hk]

theorem placesOf_stop (hk : isPlaces k = false) : placesOf k = ([], k) := by
  rw [placesOf, hk]
  rfl

theorem exponentOf_part (x : ℤ) (hk : k.head?.any isDigit = false) :
    exponentOf (exponentPart format x ++ k) = (x, k) := by
  set digits := Bytes.padLeft format.exponentWidth (ch '0') (Bytes.ofNat x.natAbs) with hdigits
  have hall : ∀ b ∈ digits, isDigit b = true :=
    List.forall_mem_append.2 ⟨isDigit_zeros _, fun _ => Bytes.isDigit_of_mem_ofNat⟩
  have hvalue : digitsValue digits = x.natAbs := by
    rw [hdigits, Bytes.padLeft, digitsValue_append, digitsValue_replicate, Nat.zero_mul,
      Nat.zero_add, Bytes.digitsValue_ofNat]
  have htext : exponentPart format x ++ k =
      ch 'e' :: (if x < 0 then ch '-' else ch '+') :: (digits ++ k) := rfl
  rw [htext, exponentOf, if_pos rfl, takeWhile_append_stop hall hk, dropWhile_append_stop hall hk,
    hvalue]
  by_cases hx : x < 0
  · rw [if_pos hx, if_pos rfl, show -1 * (x.natAbs : ℤ) = x by omega]
  · rw [if_neg hx, if_neg (by decide), show 1 * (x.natAbs : ℤ) = x by omega]

theorem exponentOf_stop (hk : k.head? ≠ some (ch 'e')) : exponentOf k = (0, k) := by
  unfold exponentOf
  split
  · rw [if_neg (by simpa using hk)]
  · rfl

end Parts

/-- Digits, places and an exponent part are read one after another. -/
theorem scan_of_parts {whole s t k places : Bytes} {x : ℤ} (hw : ∀ b ∈ whole, isDigit b = true)
    (hs : s.head?.any isDigit = false) (hplaces : placesOf s = (places, t))
    (hexponent : exponentOf t = (x, k)) :
    scan (whole ++ s) = (digitsValue (whole ++ places) * (10 : ℚ) ^ (x - places.length), k) := by
  rw [scan, takeWhile_append_stop hw hs, dropWhile_append_stop hw hs, hplaces, hexponent]

/-! ### Numerals without an exponent -/

/-- Digits, perhaps with a point and more digits behind it, and the number that they stand for. -/
inductive Fixed : Bytes → ℚ → Prop
  | whole {w : Bytes} : w ≠ [] → (∀ b ∈ w, isDigit b = true) → Fixed w (digitsValue w)
  | point {w v : Bytes} : w ≠ [] → (∀ b ∈ w, isDigit b = true) → v ≠ [] →
      (∀ b ∈ v, isDigit b = true) →
      Fixed (w ++ ch '.' :: v) (digitsValue (w ++ v) * (10 : ℚ) ^ (-v.length : ℤ))

theorem scan_fixed {s k : Bytes} {q : ℚ} (h : Fixed s q) (hk : k.head?.any isIdent = false)
    (hpoint : s.all isDigit = true → isPlaces k = false) : scan (s ++ k) = (q, k) := by
  have hkdigit : k.head?.any isDigit = false := not_head_any_mono hk fun _ => isIdent_of_isDigit
  have hexponent : exponentOf k = (0, k) := by
    refine exponentOf_stop fun hhead => ?_
    rw [hhead] at hk
    cases hk
  cases h with
  | whole _ hw =>
    have hstop := placesOf_stop (hpoint (List.all_eq_true.2 hw))
    rw [scan_of_parts hw hkdigit hstop hexponent]
    simp
  | point _ hw hne hv =>
    rw [List.append_assoc, scan_of_parts hw rfl (placesOf_point hv hne hkdigit) hexponent, zero_sub]

section Positional

variable {digits : Bytes} (hdigits : ∀ b ∈ digits, isDigit b = true) (hne : digits ≠ [])

include hdigits hne

theorem fixed_positional (p : ℤ) :
    Fixed (positional digits p) (digitsValue digits * (10 : ℚ) ^ p) := by
  unfold positional
  by_cases hp : 0 ≤ p
  · have hall := List.forall_mem_append.2 ⟨hdigits, isDigit_zeros p.toNat⟩
    have hvalue : (digitsValue (digits ++ List.replicate p.toNat (ch '0')) : ℚ) =
        digitsValue digits * (10 : ℚ) ^ p := by
      rw [digitsValue_append, digitsValue_replicate, List.length_replicate]
      push_cast
      rw [add_zero, ← zpow_natCast, Int.toNat_of_nonneg hp]
    rw [if_pos hp, ← hvalue]
    exact .whole (List.append_ne_nil_of_left_ne_nil hne _) hall
  have hplaces : ((-p).toNat : ℤ) = -p := Int.toNat_of_nonneg (by omega)
  rw [if_neg hp]
  dsimp only
  split_ifs with hfew
  · set n := digits.length - (-p).toNat with hn
    have hlength : -((digits.drop n).length : ℤ) = p := by
      rw [List.length_drop]
      omega
    have hfront : ∀ b ∈ digits.take n, isDigit b = true := fun b hb =>
      hdigits b (List.mem_of_mem_take hb)
    have hback : ∀ b ∈ digits.drop n, isDigit b = true := fun b hb =>
      hdigits b (List.mem_of_mem_drop hb)
    have hfixed := Fixed.point (w := digits.take n) (v := digits.drop n)
      (by rw [← List.length_pos_iff, List.length_take]; omega) hfront
      (by rw [← List.length_pos_iff, List.length_drop]; omega) hback
    rwa [List.take_append_drop, hlength] at hfixed
  · set zeros := List.replicate ((-p).toNat - digits.length) (ch '0') with hzeros
    have hall : ∀ b ∈ zeros ++ digits, isDigit b = true :=
      List.forall_mem_append.2 ⟨isDigit_zeros _, hdigits⟩
    have hlength : -((zeros ++ digits).length : ℤ) = p := by
      rw [List.length_append, hzeros, List.length_replicate]
      omega
    have hvalue : digitsValue ([ch '0'] ++ (zeros ++ digits)) = digitsValue digits := by
      rw [digitsValue_append, digitsValue_append, hzeros, digitsValue_replicate,
        show digitsValue [ch '0'] = 0 from rfl, Nat.zero_mul, Nat.zero_mul, Nat.zero_add,
        Nat.zero_add]
    have hfixed := Fixed.point (w := [ch '0']) (v := zeros ++ digits) (List.cons_ne_nil _ _)
      (List.forall_mem_singleton.2 rfl) (List.append_ne_nil_of_right_ne_nil _ hne) hall
    rw [hvalue, hlength] at hfixed
    have htext : ascii "0." ++ zeros ++ digits = [ch '0'] ++ ch '.' :: (zeros ++ digits) := by
      rw [List.append_assoc]
      rfl
    rwa [htext]

end Positional

/-! ### The texts of decimals -/

section Texts

variable {digits k : Bytes} (hdigits : ∀ b ∈ digits, isDigit b = true) (hne : digits ≠ [])
  (hk : k.head?.any isIdent = false)

include hdigits hne hk

theorem scan_pointed (x : ℤ) :
    scan (pointed digits ++ (exponentPart format x ++ k)) =
      (digitsValue digits * (10 : ℚ) ^ (x - (digits.length - 1 : ℕ)), k) := by
  have hkdigit : k.head?.any isDigit = false := not_head_any_mono hk fun _ => isIdent_of_isDigit
  have hexponent := exponentOf_part x hkdigit
  cases digits with
  | nil => exact absurd rfl hne
  | cons a rest =>
    have ha : ∀ b ∈ [a], isDigit b = true := by simpa using hdigits a List.mem_cons_self
    cases rest with
    | nil =>
      have hplaces : placesOf (exponentPart format x ++ k) = ([], exponentPart format x ++ k) :=
        placesOf_stop rfl
      have hscan := scan_of_parts ha rfl hplaces hexponent
      simpa [pointed] using hscan
    | cons b rest =>
      have hrest : ∀ c ∈ b :: rest, isDigit c = true := fun c hc =>
        hdigits c (List.mem_cons_of_mem a hc)
      have hplaces := placesOf_point (k := exponentPart format x ++ k) hrest
        (List.cons_ne_nil b rest) rfl
      have hscan := scan_of_parts ha (by rfl) hplaces hexponent
      simpa [pointed] using hscan

end Texts

/-- **The text of a decimal is read back.** A text of digits alone ends where no point and digit
follow. -/
theorem scan_ofDecimal (d : Decimal) {k : Bytes} (hk : k.head?.any isIdent = false)
    (hpoint : (ofDecimal format d).all isDigit = true → isPlaces k = false) :
    scan (ofDecimal format d ++ k) = (d.value, k) := by
  have hdigits : ∀ b ∈ Bytes.ofNat d.digits, isDigit b = true := fun _ =>
    Bytes.isDigit_of_mem_ofNat
  have hne := Bytes.ofNat_ne_nil d.digits
  have hlength : 0 < (Bytes.ofNat d.digits).length := List.length_pos_iff.2 hne
  unfold ofDecimal at hpoint ⊢
  dsimp only at hpoint ⊢
  split_ifs at hpoint ⊢ with hx
  · rw [List.append_assoc, scan_pointed hdigits hne hk, Bytes.digitsValue_ofNat, Decimal.value]
    congr 3
    omega
  · rw [scan_fixed (fixed_positional hdigits hne d.exponent) hk hpoint, Bytes.digitsValue_ofNat,
      Decimal.value]

/-- The text of a decimal starts with a digit. -/
theorem head_ofDecimal (d : Decimal) : (ofDecimal format d).head?.any isDigit = true := by
  have hdigits : ∀ b ∈ Bytes.ofNat d.digits, isDigit b = true := fun _ =>
    Bytes.isDigit_of_mem_ofNat
  have hne := Bytes.ofNat_ne_nil d.digits
  unfold ofDecimal
  generalize Bytes.ofNat d.digits = digits at hdigits hne
  obtain ⟨b, rest, rfl⟩ := List.exists_cons_of_ne_nil hne
  have hb := hdigits b List.mem_cons_self
  dsimp only
  split_ifs
  · cases rest <;> exact hb
  · unfold positional
    dsimp only
    split_ifs with hp hplaces
    · exact hb
    · obtain ⟨n, hn⟩ : ∃ n, (b :: rest).length - (-d.exponent).toNat = n + 1 :=
        Nat.exists_eq_succ_of_ne_zero (by omega)
      rw [hn]
      exact hb
    · rfl

/-! ### The values of numerals -/

theorem sign_of_isDigit {s : Bytes} (h : s.head?.any isDigit = true) : sign s = (false, s) := by
  cases s with
  | nil => cases h
  | cons b s =>
    have hb : isDigit b = true := h
    rw [sign, if_neg (by rintro rfl; cases hb), if_neg (by rintro rfl; cases hb)]

end Numeral

namespace Binary64

theorem negative_ofMagnitude (negative : Bool) (n : ℕ) :
    (ofMagnitude negative n).negative = negative := by
  unfold ofMagnitude
  split_ifs <;> rfl

theorem negative_ofRatio (negative : Bool) (num den : ℕ) :
    (ofRatio negative num den).negative = negative := by
  obtain ⟨n, hn⟩ : ∃ n, ofRatio negative num den = ofMagnitude negative n := by
    unfold ofRatio
    split_ifs
    · exact ⟨0, rfl⟩
    · exact ⟨_, rfl⟩
  rw [hn, negative_ofMagnitude]

theorem negative_ofDecimal (negative : Bool) (digits : ℕ) (exponent : ℤ) :
    (ofDecimal negative digits exponent).negative = negative := by
  unfold ofDecimal zero infinity
  split_ifs
  · exact negative_ofMagnitude _ _
  · rfl
  · exact negative_ofMagnitude _ _
  · exact negative_ofRatio _ _ _

end Binary64

namespace Scan.Lexeme

theorem isFinite_of_hexNumber? {digits : Bytes} {x : Binary64} (h : hexNumber? digits = some x) :
    x.isFinite = true ∧ x.negative = false := by
  unfold hexNumber? at h
  split_ifs at h with hlimit
  cases h
  simp only [Bool.or_eq_true, decide_eq_true_eq, not_or, Nat.not_le] at hlimit
  exact ⟨Binary64.isFinite_ofNat hlimit.2, Binary64.negative_ofRatio _ _ _⟩

theorem isFinite_of_finite? {s : Bytes} {x : Binary64} (hs : s.head?.any isDigit = true)
    (h : Numeral.finite? s = some x) : x.isFinite = true ∧ x.negative = false := by
  obtain ⟨hvalue, hfinite⟩ := Option.filter_eq_some_iff.1 h
  simp only [Numeral.value?, Numeral.sign_of_isDigit hs, Option.bind_eq_bind] at hvalue
  split_ifs at hvalue
  · cases hvalue
  obtain ⟨e, -, he⟩ := Option.bind_eq_some_iff.1 hvalue
  cases he
  exact ⟨hfinite, Binary64.negative_ofDecimal _ _ _⟩

/-- The values that numerals stand for are finite and have no sign. -/
theorem isFinite_of_number {s : Bytes} {n : ℕ} {x : Binary64} (h : number s = ⟨n, .ok x⟩) :
    x.isFinite = true ∧ x.negative = false := by
  have hresult : ∀ {m : ℕ} {reported digits after : Bytes} {value? : Option Binary64},
      numberFrom m reported digits after value? = ⟨n, .ok x⟩ → value? = some x := by
    intro m reported digits after value? hfrom
    have hok := congrArg Reading.result hfrom
    cases value? with
    | none => cases hok
    | some y => exact congrArg some (Except.ok.inj hok)
  unfold number at h
  split_ifs at h with hdigit hhex
  · cases h
  · exact isFinite_of_hexNumber? (hresult h)
  · refine isFinite_of_finite? ?_ (hresult h)
    have hhead : s.head?.any isDigit = true := by simpa using hdigit
    cases s with
    | nil => cases hhead
    | cons b s =>
      have hb : isDigit b = true := hhead
      rw [List.takeWhile_cons_of_pos (by rw [isDecimalPart, hb]; rfl)]
      exact hb

end Scan.Lexeme
instance : Nonempty Binary64 := ⟨.nan⟩

namespace Numeral

/-- The value that has a given number as its shortest decimal. -/
noncomputable def valueOf (q : ℚ) : Binary64 :=
  Function.invFunOn (fun x => (Shortest.decimal x).value)
    {x | x.isFinite = true ∧ x.negative = false} q

section

variable {x : Binary64} (hfinite : x.isFinite = true) (hsign : x.negative = false)

include hfinite hsign

theorem valueOf_decimal : valueOf (Shortest.decimal x).value = x := by
  have hinj : Set.InjOn (fun x => (Shortest.decimal x).value)
      {x | x.isFinite = true ∧ x.negative = false} := fun a ha b hb =>
    Shortest.eq_of_decimal ha.1 hb.1 (ha.2.trans hb.2.symm)
  exact hinj.leftInvOn_invFunOn ⟨hfinite, hsign⟩

theorem text_eq_ofDecimal : text x = ofDecimal format (Shortest.decimal x) := by
  have hexponent : x.exponent.val < 2047 := by simpa [Binary64.isFinite] using hfinite
  have hne : (x.exponent.val == 2047) = false := by
    rw [beq_eq_false_iff_ne]
    omega
  simp [text, write, Binary64.isNaN, Binary64.isInfinite, hne, hsign]

/-- **The text of a value is read back as this value.** -/
theorem scan_text {k : Bytes} (hk : k.head?.any isIdent = false)
    (hpoint : (text x).all isDigit = true → isPlaces k = false) :
    (scan (text x ++ k)).map valueOf id = (x, k) := by
  rw [text_eq_ofDecimal hfinite hsign] at hpoint ⊢
  rw [scan_ofDecimal _ hk hpoint, Prod.map_apply, valueOf_decimal hfinite hsign, id]

theorem head_text : (text x).head?.any isDigit = true := by
  rw [text_eq_ofDecimal hfinite hsign]
  exact head_ofDecimal _

end

end Numeral

end MiniC
