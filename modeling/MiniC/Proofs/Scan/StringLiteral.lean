import MiniC.Proofs.Macro.Partition
import MiniC.Proofs.Scan.Local

/-!
# Where a string literal ends

The characters of a string are read one after another up to its closing quote. The preprocessor
looks for the quote only: it passes a backslash together with the byte behind it and knows no escape
sequences. The two agree on the end of the literal, since an escape sequence is a backslash, one
byte and then nothing but digits (`escape_taken`), so that a character more or less read does not
change where the quote is found (`closedLength?_stringNext?`).

* `string_end`: what is read as a string is cut off as a string token; a string token is read as a
  string, unless an escape sequence in it is not known; an open literal cannot be read.
-/

namespace MiniC

/-! ### The closing quote -/

namespace Quoted

variable {quote : UInt8}

theorem closedLength?_cons {b : UInt8} (hb : b ≠ ch '\\') (hq : b ≠ quote) (k : Nat) (s : Bytes) :
    closedLength? quote k (b :: s) = closedLength? quote (k + 1) s := by
  cases s with
  | nil => simp [closedLength?, hq]
  | cons c s => simp [closedLength?, hb, hq]

/-- Bytes that neither escape nor close are passed. -/
theorem closedLength?_append {w : Bytes} (h : ∀ b ∈ w, b ≠ ch '\\' ∧ b ≠ quote) (r : Bytes) :
    ∀ k, closedLength? quote k (w ++ r) = closedLength? quote (k + w.length) r := by
  induction w with
  | nil => exact fun k => rfl
  | cons b w ih =>
    intro k
    obtain ⟨⟨hb, hq⟩, hw⟩ := List.forall_mem_cons.1 h
    rw [List.cons_append, closedLength?_cons hb hq, ih hw, List.length_cons, Nat.add_assoc,
      Nat.add_comm 1]

theorem closedLength?_quote (hq : quote ≠ ch '\\') (k : Nat) (s : Bytes) :
    closedLength? quote k (quote :: s) = some (k + 1) := by
  cases s with
  | nil => simp [closedLength?]
  | cons c s => simp [closedLength?, hq]

theorem lt_of_closedLength? {k n : Nat} {s : Bytes} (h : closedLength? quote k s = some n) :
    k < n := by
  obtain ⟨w, r, -, hw, rfl⟩ := Macro.exists_quotedBody h
  have hpos : w ≠ [] := by
    rintro rfl
    cases hw
  have := List.length_pos_iff.2 hpos
  omega

/-- The literal ends with the quote that was looked for. -/
theorem getElem?_of_closedLength? {n : Nat} {s : Bytes}
    (h : closedLength? quote 1 s = some (n + 1)) : (quote :: s)[n]? = some quote := by
  obtain ⟨w, r, rfl, hw, hn⟩ := Macro.exists_quotedBody h
  have hlast := hw.getLast?
  rw [List.getLast?_eq_getElem?] at hlast
  have hpos : 0 < w.length := by
    by_contra hzero
    rw [List.length_eq_zero_iff.1 (by omega : w.length = 0)] at hlast
    cases hlast
  obtain rfl : n = w.length - 1 + 1 := by omega
  rw [List.getElem?_cons_succ, List.getElem?_append_left (by omega), hlast]

end Quoted

namespace Scan

namespace Lexeme

/-! ### Both scanners at once -/

theorem isHexDigit_of_isOctalDigit : ∀ b : UInt8, isOctalDigit b = true → isHexDigit b = true :=
  forall_byte (by decide +kernel)

theorem plain_of_isHexDigit : ∀ b : UInt8, isHexDigit b = true → b ≠ ch '\\' ∧ b ≠ ch '"' :=
  forall_byte (by decide +kernel)

/-- An escape sequence takes the byte behind its backslash, and then digits only. -/
theorem escape_taken {s : Bytes} {n : Nat} {c : UInt8} (h : escape s = ⟨n, .ok c⟩) :
    ∃ b w r, s = b :: (w ++ r) ∧ n = w.length + 1 ∧ ∀ d ∈ w, isHexDigit d = true := by
  cases s with
  | nil => cases h
  | cons b rest =>
    rw [escape] at h
    split_ifs at h with hx ho
    · have hlength := congrArg Reading.length h
      refine ⟨b, rest.takeWhile isHexDigit, rest.dropWhile isHexDigit, ?_, ?_, ?_⟩
      · rw [List.takeWhile_append_dropWhile]
      · dsimp only at hlength
        omega
      · exact fun d => List.mem_takeWhile_imp
    · have hdigits : ((b :: rest).take 3).takeWhile isOctalDigit =
          b :: (rest.take 2).takeWhile isOctalDigit := by
        rw [List.take_succ_cons, List.takeWhile_cons_of_pos ho]
      have hlength := congrArg Reading.length h
      rw [hdigits] at hlength
      have hfront : (rest.take 2).takeWhile isOctalDigit <+: rest.take 2 :=
        List.takeWhile_prefix isOctalDigit
      obtain ⟨r, hr⟩ := hfront.trans <| List.take_prefix 2 rest
      refine ⟨b, (rest.take 2).takeWhile isOctalDigit, r, by rw [hr], hlength.symm, ?_⟩
      exact fun d hd => isHexDigit_of_isOctalDigit d (List.mem_takeWhile_imp hd)
    · cases he : simpleEscape? b with
      | none =>
        rw [he] at h
        cases h
      | some c' =>
        rw [he] at h
        cases h
        exact ⟨b, [], rest, rfl, rfl, List.forall_mem_nil _⟩

theorem escape_of_error {s : Bytes} {e : Refusal} (h : (escape s).result = .error e) :
    escape s = refuse "escape sequence" := by
  cases s with
  | nil => rfl
  | cons b rest =>
    rw [escape] at h ⊢
    split_ifs at h ⊢
    cases he : simpleEscape? b with
    | none => rfl
    | some c =>
      rw [he] at h
      cases h

/-- **A character of a string does not change where its closing quote is found.** -/
theorem closedLength?_stringNext? {k k' : Nat} {s s' : Bytes} {c : UInt8}
    (h : stringNext? (k, s) = some (c, (k', s'))) :
    Quoted.closedLength? (ch '"') k s = Quoted.closedLength? (ch '"') k' s' := by
  obtain ⟨hquote, n, hc, rfl, rfl⟩ := stringNext?_eq_some h
  cases s with
  | nil => cases hc
  | cons b rest =>
    rw [character] at hc
    split_ifs at hc with hb
    · obtain ⟨hn, hresult⟩ := Reading.mk.inj hc
      have hescape : escape rest = ⟨(escape rest).length, .ok c⟩ := by rw [← hresult]
      obtain ⟨e, w, r, rfl, hlength, hw⟩ := escape_taken hescape
      obtain rfl : n = w.length + 2 := by omega
      have hdrop : (b :: e :: (w ++ r)).drop (w.length + 2) = r := by simp
      have hplain := Quoted.closedLength?_append (fun d hd => plain_of_isHexDigit d (hw d hd)) r
      rw [hdrop, hb, Quoted.closedLength?, if_pos rfl, hplain, Nat.add_assoc, Nat.add_comm 2]
    · cases hc
      exact Quoted.closedLength?_cons hb (fun hq => hquote (congrArg some hq)) k rest

theorem closedLength?_gathered {r stop : Nat × Bytes} {text : Bytes}
    (h : Gathered stringNext? r text stop) :
    Quoted.closedLength? (ch '"') r.1 r.2 = Quoted.closedLength? (ch '"') stop.1 stop.2 := by
  induction h with
  | stop _ => rfl
  | take hnext _ ih => exact (closedLength?_stringNext? hnext).trans ih

/-- No character is left at the end of the text, at the closing quote, and in front of an escape
sequence that is not known. -/
theorem stringNext?_eq_none {r : Nat × Bytes} (h : stringNext? r = none) :
    r.2 = [] ∨ (∃ rest, r.2 = ch '"' :: rest) ∨
      ∃ rest, r.2 = ch '\\' :: rest ∧ escape rest = refuse "escape sequence" := by
  obtain ⟨k, s⟩ := r
  cases s with
  | nil => exact .inl rfl
  | cons b rest =>
    right
    by_cases hb : b = ch '"'
    · exact .inl ⟨rest, by rw [hb]⟩
    · right
      cases hc : (character (b :: rest)).result with
      | ok c => simp [stringNext?, hb, hc] at h
      | error e =>
        rw [character] at hc
        split_ifs at hc with hslash
        exact ⟨rest, by rw [hslash], escape_of_error hc⟩

/-- **Reading a string ends in one of three ways:** at the closing quote, at an escape sequence that
is not known and stands in front of the closing quote if there is one, or at the end of the text. -/
theorem string_cases (s : Bytes) :
    (∃ k text, string (ch '"' :: s) = ⟨k + 1, .ok text⟩ ∧
      Quoted.closedLength? (ch '"') 1 s = some (k + 1)) ∨
    (∃ n, string (ch '"' :: s) = ⟨n, .error (.expected (ascii "escape sequence"))⟩ ∧
      ∀ k, Quoted.closedLength? (ch '"') 1 s = some (k + 1) → n < k) ∨
    (∃ n, string (ch '"' :: s) = ⟨n, .error (.expected [ch '"'])⟩ ∧
      Quoted.closedLength? (ch '"') 1 s = none) := by
  obtain ⟨text, stop, hrun, hstring⟩ := exists_string_gathered s
  have hclosed : Quoted.closedLength? (ch '"') 1 s = _ := closedLength?_gathered hrun
  rw [hstring, hclosed]
  obtain ⟨k, rest⟩ := stop
  rcases stringNext?_eq_none hrun.next?_stop with rfl | ⟨rest, rfl⟩ | ⟨rest, rfl, hescape⟩
  · exact .inr (.inr ⟨k, rfl, rfl⟩)
  · exact .inl ⟨k, text, by simp [stringEnd], Quoted.closedLength?_quote (by decide) k rest⟩
  · have hslash : ch '\\' ≠ ch '"' := by decide
    refine .inr (.inl ⟨k + 1, by simp [stringEnd, character, hescape, refuse, hslash], ?_⟩)
    intro n hn
    cases rest with
    | nil => simp [Quoted.closedLength?, hslash] at hn
    | cons c rest =>
      rw [Quoted.closedLength?, if_pos rfl] at hn
      have := Quoted.lt_of_closedLength? hn
      omega

theorem closedLength?_of_string {s text : Bytes} {n : Nat}
    (h : string (ch '"' :: s) = ⟨n, .ok text⟩) :
    0 < n ∧ Quoted.closedLength? (ch '"') 1 s = some n := by
  rcases string_cases s with ⟨k, text', hstring, hclosed⟩ | ⟨m, hstring, -⟩ | ⟨m, hstring, -⟩
  · cases hstring.symm.trans h
    exact ⟨Nat.succ_pos k, hclosed⟩
  · cases hstring.symm.trans h
  · cases hstring.symm.trans h

end Lexeme

/-! ### The end of the literal -/

namespace Scanner

theorem read_ok {α : Type} {reader : Bytes → Reading α} {s : Scanner} {n : Nat} {a : α}
    (h : reader s.cursor.rest = ⟨n, .ok a⟩) (after : Scanner → Scanner) :
    s.read reader after = (.ok a, after (s.advanceBy n)) := by
  simp [read, h]

theorem read_expected {α : Type} {reader : Bytes → Reading α} {s : Scanner} {n : Nat}
    {what : Bytes} (h : reader s.cursor.rest = ⟨n, .error (.expected what)⟩)
    (after : Scanner → Scanner) :
    s.read reader after = (.error ((s.advanceBy n).unexpected what), s.advanceBy n) := by
  simp [read, h]

/-- A text that starts with a quote starts with no blank. -/
theorem ofText_quote (s file : Bytes) :
    ofText (ch '"' :: s) file = ⟨Cursor.ofText (ch '"' :: s) file, none⟩ :=
  ofText_of_isSolid rfl file

/-- A string is read at the cursor as `text`, with its closing quote at offset `k`. -/
structure ReadsString (s : Scanner) (keep : Bool) (k : Nat) (text : Bytes) : Prop where
  taken : Lexeme.string s.cursor.rest = ⟨k + 1, .ok text⟩
  quote : s.cursor.rest[k]? = some (ch '"')
  result : s.readString keep = (.ok text, (s.advanceBy (k + 1)).skip keep)

variable {s : Scanner} {t : Bytes} (hs : s.cursor.rest = ch '"' :: t)
include hs

theorem readsString_of_string {k : Nat} {text : Bytes} (keep : Bool)
    (h : Lexeme.string (ch '"' :: t) = ⟨k + 1, .ok text⟩) : s.ReadsString keep k text where
  taken := by rw [hs, h]
  quote := by
    rw [hs]
    exact Quoted.getElem?_of_closedLength? (Lexeme.closedLength?_of_string h).2
  result := read_ok (by rw [hs, h]) _

/-- Every string that is read has a closing quote. -/
theorem exists_readsString {keep : Bool} {text : Bytes} {s' : Scanner}
    (h : s.readString keep = (.ok text, s')) : ∃ k, s.ReadsString keep k text := by
  rcases Lexeme.string_cases t with ⟨k, text', hstring, -⟩ | ⟨n, hstring, -⟩ | ⟨n, hstring, -⟩
  · have hreads := readsString_of_string hs keep hstring
    cases hreads.result.symm.trans h
    exact ⟨k, hreads⟩
  · cases (read_expected (by rw [hs, hstring]) (skip keep)).symm.trans h
  · cases (read_expected (by rw [hs, hstring]) (skip keep)).symm.trans h

end Scanner

end Scan

namespace Macro.Token

/-- At a double quote a literal is looked for. -/
theorem lexeme_quote (t : Bytes) :
    lexeme (ch '"') (ch '"' :: t) = literal .string (ch '"') (ch '"' :: t) := rfl

theorem next?_quote {t : Bytes} {n : Nat} (h : Quoted.closedLength? (ch '"') 1 t = some n)
    (column : Nat) : next? (column, ch '"' :: t) =
      some (⟨.string, (ch '"' :: t).take n, column⟩, (column + n, (ch '"' :: t).drop n)) := by
  simp [next?, lexeme_quote, literal, h]

theorem fault?_quote {t : Bytes} {n : Nat} (h : Quoted.closedLength? (ch '"') 1 t = some n)
    (column : Nat) : fault? (column, ch '"' :: t) = none := by
  simp [fault?, lexeme_quote, literal, h]

theorem closedLength?_of_next? {t : Bytes} {column : Nat} {token : Token} {rest : Rest}
    (h : next? (column, ch '"' :: t) = some (token, rest)) :
    token.kind = .string ∧ Quoted.closedLength? (ch '"') 1 t = some token.text.length := by
  cases hclosed : Quoted.closedLength? (ch '"') 1 t with
  | none => simp [next?, lexeme_quote, literal, hclosed] at h
  | some n =>
    rw [next?_quote hclosed] at h
    cases h
    obtain ⟨w, r, rfl, -, rfl⟩ := exists_quotedBody hclosed
    refine ⟨rfl, ?_⟩
    simp only [List.length_take, List.length_cons, List.length_append]
    congr 1
    omega

end Macro.Token

namespace Scan

/-- **Parser and preprocessor agree where a string literal ends.** Let a text start with a double
quote. If it is read as a string with its closing quote at offset `k`, then the first token is a
string token of the bytes up to there. If the first token has length `k + 1`, it is a string token,
and the text is read as a string with its closing quote at offset `k`, or refused at an escape
sequence in front of it. If the literal is not closed, it cannot be read. -/
theorem string_end (t file : Bytes) (keep : Bool) (ht : t.head? = some (ch '"')) :
    let s := Scanner.ofText t file
    (∀ text s', s.readString keep = (.ok text, s') → ∃ k, s.ReadsString keep k text) ∧
    (∀ k text, s.ReadsString keep k text →
      Macro.Token.next? (1, t) =
        some (⟨.string, t.take (k + 1), 1⟩, (1 + (k + 1), t.drop (k + 1)))) ∧
    (∀ k token rest, Macro.Token.next? (1, t) = some (token, rest) → token.text.length = k + 1 →
      token.kind = .string ∧ ((∃ text, s.ReadsString keep k text) ∨
        ∃ n < k, s.readString keep =
          (.error ((s.advanceBy n).unexpected (ascii "escape sequence")), s.advanceBy n))) ∧
    (∀ column kind, Macro.Token.fault? (1, t) = some (column, .unterminated kind) →
      ∃ e s', s.readString keep = (.error e, s')) := by
  obtain ⟨t, rfl⟩ := List.head?_eq_some_iff.1 ht
  intro s
  have hs : s.cursor.rest = ch '"' :: t := by
    rw [show s = _ from Scanner.ofText_quote t file]
    rfl
  refine ⟨fun text s' h => Scanner.exists_readsString hs h, fun k text h => ?_,
    fun k token rest hnext hk => ?_, fun column kind hfault => ?_⟩
  · have hstring := h.taken
    rw [hs] at hstring
    exact Macro.Token.next?_quote (Lexeme.closedLength?_of_string hstring).2 1
  · obtain ⟨hkind, hclosed⟩ := Macro.Token.closedLength?_of_next? hnext
    rw [hk] at hclosed
    refine ⟨hkind, ?_⟩
    rcases Lexeme.string_cases t with ⟨n, text, hstring, hn⟩ | ⟨n, hstring, hbefore⟩ | ⟨n, -, hopen⟩
    · obtain rfl : n = k := Nat.succ.inj (Option.some.inj (hn.symm.trans hclosed))
      exact .inl ⟨text, Scanner.readsString_of_string hs keep hstring⟩
    · exact .inr ⟨n, hbefore k hclosed, Scanner.read_expected (by rw [hs, hstring]) _⟩
    · cases hopen.symm.trans hclosed
  · cases hread : s.readString keep with
    | mk result s' =>
      cases result with
      | error e => exact ⟨e, s', rfl⟩
      | ok text =>
        obtain ⟨k, hk⟩ := Scanner.exists_readsString hs hread
        have hstring := hk.taken
        rw [hs] at hstring
        have hclosed := (Lexeme.closedLength?_of_string hstring).2
        rw [Macro.Token.fault?_quote hclosed] at hfault
        cases hfault

/-- A quote behind a backslash does not close the literal, and one behind `\x` does. A literal with
an unknown escape sequence is a token, and is refused in front of its closing quote. -/
theorem string_end_escapes :
    let s := Scanner.ofText (ascii "\"a\\\"b\\x\";") []
    let s' := Scanner.ofText (ascii "\"\\q\"") []
    s.ReadsString true 7 [ch 'a', ch '"', ch 'b', 0] ∧
    Macro.Token.next? (1, ascii "\"a\\\"b\\x\";") =
      some (⟨.string, ascii "\"a\\\"b\\x\"", 1⟩, (9, ascii ";")) ∧
    Macro.Token.next? (1, ascii "\"\\q\"") = some (⟨.string, ascii "\"\\q\"", 1⟩, (5, [])) ∧
    (∃ n < 3, s'.readString true =
      (.error ((s'.advanceBy n).unexpected (ascii "escape sequence")), s'.advanceBy n)) ∧
    Macro.Token.fault? (1, ascii "\"a\\\"") = some (1, .unterminated .string) ∧
    ∃ e s'', (Scanner.ofText (ascii "\"a\\\"") []).readString true = (.error e, s'') := by
  intro s s'
  have hreads : s.ReadsString true 7 [ch 'a', ch '"', ch 'b', 0] := ⟨rfl, rfl, rfl⟩
  have hnext : Macro.Token.next? (1, ascii "\"\\q\"") =
      some (⟨.string, ascii "\"\\q\"", 1⟩, (5, [])) := by decide +kernel
  have hfault : Macro.Token.fault? (1, ascii "\"a\\\"") = some (1, .unterminated .string) := by
    decide +kernel
  obtain ⟨-, hfirst, -, -⟩ := string_end (ascii "\"a\\\"b\\x\";") [] true rfl
  obtain ⟨-, -, hsecond, -⟩ := string_end (ascii "\"\\q\"") [] true rfl
  obtain ⟨-, -, -, hthird⟩ := string_end (ascii "\"a\\\"") [] true rfl
  have hrefused : ¬ ∃ text, s'.ReadsString true 3 text := by
    rintro ⟨text, h⟩
    cases h.taken
  exact ⟨hreads, hfirst 7 _ hreads, hnext, (hsecond 3 _ _ hnext rfl).2.resolve_left hrefused,
    hfault, hthird _ _ hfault⟩

end Scan

end MiniC
