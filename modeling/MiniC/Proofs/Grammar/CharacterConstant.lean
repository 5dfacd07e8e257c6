import MiniC.Proofs.Grammar.Run
import MiniC.Proofs.Scan.CommentText
import MiniC.Proofs.Scan.Local

/-!
# Character constants

Between its quotes a character constant has one character: a byte that is no backslash, or an
escape sequence (`OneCharacter`). `primary_character_iff` says which texts behind an opening quote
are read as a constant: comments, then one character, then the closing quote. The comments are
skipped because they stand behind a word like any other, and the character may be a quote by
itself, since nothing is asked of it (`primary_character_commented`). Where neither a comment nor a
second quote stands behind the first, the text is a constant in the strict sense (`IsConstant`).
-/

namespace MiniC

open Scan

/-! ### One character -/

namespace Scan.Lexeme

/-- The text `w`, with `k` behind it, spells one character. -/
inductive OneCharacter (k : Bytes) (code : UInt8) : (w : Bytes) → Prop
  | byte (h : code ≠ ch '\\') : OneCharacter k code [code]
  | escape {w : Bytes} (h : escape (w ++ k) = ⟨w.length, .ok code⟩) :
    OneCharacter k code (ch '\\' :: w)

theorem character_of_oneCharacter {k w : Bytes} {code : UInt8} (h : OneCharacter k code w) :
    character (w ++ k) = ⟨w.length, .ok code⟩ := by
  cases h with
  | byte h =>
    rw [List.singleton_append, character, if_neg h]
    rfl
  | @escape w h =>
    rw [List.cons_append, character, if_pos rfl, h, Nat.add_comm]
    rfl

theorem oneCharacter_of_character {s : Bytes} {n : Nat} {code : UInt8}
    (h : character s = ⟨n, .ok code⟩) :
    ∃ w k, s = w ++ k ∧ OneCharacter k code w ∧ n = w.length := by
  cases s with
  | nil => cases h
  | cons b rest =>
    rw [character] at h
    split_ifs at h with hb
    · obtain ⟨hn, hcode⟩ := Reading.mk.inj h
      have hescape : escape rest = ⟨(escape rest).length, .ok code⟩ := by rw [← hcode]
      have hle := (takes_escape hescape).2
      have hsplit := List.take_append_drop (escape rest).length rest
      have hlength : (rest.take (escape rest).length).length = (escape rest).length :=
        List.length_take_of_le hle
      refine ⟨b :: rest.take (escape rest).length, rest.drop (escape rest).length, ?_, ?_, ?_⟩
      · rw [List.cons_append, hsplit]
      · rw [hb]
        refine .escape ?_
        rw [hsplit, hlength]
        exact hescape
      · rw [List.length_cons, hlength, ← hn, Nat.add_comm]
    · cases h
      exact ⟨[code], rest, rfl, .byte hb, rfl⟩

/-- A constant does not start with a comment: behind a slash stands its closing quote. -/
theorem OneCharacter.comment? {r w : Bytes} {code : UInt8}
    (h : OneCharacter (ch '\'' :: r) code w) : Blank.comment? (w ++ ch '\'' :: r) = none := by
  cases h with
  | byte h =>
    by_cases hslash : code = ch '/'
    · rw [hslash]
      rfl
    · exact comment?_of_ne _ hslash
  | escape h => exact comment?_of_ne _ (by decide)

/-- Behind an opening quote stand one character, which is no quote by itself, and the closing
quote. -/
def IsConstant (code : UInt8) (t : Bytes) : Prop :=
  ∃ body r, t = body ++ ch '\'' :: r ∧ OneCharacter (ch '\'' :: r) code body ∧ body ≠ [ch '\'']

theorem IsConstant.head? {code : UInt8} {t : Bytes} (h : IsConstant code t) :
    t.head? ≠ some (ch '\'') := by
  obtain ⟨body, r, rfl, hbody, hquote⟩ := h
  cases hbody with
  | byte h => exact fun hcode => hquote (congrArg (fun b => [b]) (Option.some.inj hcode))
  | escape h => exact fun hslash => absurd (Option.some.inj hslash) (by decide)

end Scan.Lexeme

/-! ### The parser at a quote -/

namespace Grammar

open MiniC.Parser Scan.Lexeme

section Quote

variable {operand : Parser (Option Expr)} {p : Position} {st st' : ParserState} {t : Bytes}
  {e : Option Expr}

theorem leads_quote_iff {s : Bytes} : leads (ascii "'") s = true ↔ ∃ r, s = ch '\'' :: r := by
  constructor
  · intro h
    rw [leads, Bool.and_eq_true] at h
    obtain ⟨r, rfl⟩ := List.isPrefixOf_iff_prefix.mp h.1
    exact ⟨r, rfl⟩
  · rintro ⟨r, rfl⟩
    cases r <;> rfl

/-- The parser at an opening quote, in terms of the scanner behind it. -/
theorem primary_quote_iff (h : st.scanner.cursor.rest = ch '\'' :: t) {s : Scanner}
    (hs : (st.scanner.advanceBy 1).skip true = s) :
    (primary operand p).run st = .ok e st' ↔
      ∃ n code, character s.cursor.rest = ⟨n, .ok code⟩ ∧
        leads (ascii "'") (s.cursor.rest.drop n) = true ∧ e = some (.char code p) ∧
        st' = { st with scanner := (s.advanceBy (n + 1)).skip false } := by
  have hmisses : ∀ b : UInt8, b ≠ ch '\'' → (accept [b]).run st = .ok false st := by
    intro b hb
    rw [accept_run, leads_of_head_ne (by rw [h]; exact fun hq => hb (Option.some.inj hq).symm)]
    rfl
  have hparen : (accept (ascii "(")).run st = .ok false st := hmisses (ch '(') (by decide)
  have hbrace : (accept (ascii "\x7b")).run st = .ok false st := hmisses 0x7b (by decide)
  have hquote : (acceptKeeping true (ascii "'")).run st = .ok true { st with scanner := s } := by
    rw [acceptKeeping_run, if_pos (leads_quote_iff.mpr ⟨t, h⟩), ← hs]
    rfl
  rw [primary, run_bind_of_ok hparen, if_neg Bool.false_ne_true, run_bind_of_ok hbrace,
    if_neg Bool.false_ne_true, run_bind_of_ok hquote, if_pos rfl]
  constructor
  · intro hrun
    obtain ⟨code, s₁, hread, hrun⟩ := run_bind_ok hrun
    obtain ⟨n, hn, rfl⟩ := scan_read_ok hread
    obtain ⟨_, s₂, hclose, hrun⟩ := run_bind_ok hrun
    rw [expect_run] at hclose
    split_ifs at hclose with hleads
    cases hclose
    cases hrun
    refine ⟨n, code, hn, ?_, rfl, ?_⟩
    · rwa [id_eq, Scanner.advanceBy, Cursor.rest_advanceBy] at hleads
    · rw [← Scanner.advanceBy_advanceBy]
      rfl
  · rintro ⟨n, code, hn, hleads, rfl, rfl⟩
    have hleads' : leads (ascii "'") (s.advanceBy n).cursor.rest = true := by
      rwa [Scanner.advanceBy, Cursor.rest_advanceBy]
    have hread : (scan Scanner.readCharacter).run { st with scanner := s } =
        .ok code { st with scanner := s.advanceBy n } := scan_read_run hn
    rw [run_bind_of_ok hread, EStateM.run_bind, expect_run, if_pos hleads',
      ← Scanner.advanceBy_advanceBy]
    rfl

variable (operand p) in
/-- Comments, one character and the closing quote are read as a character constant. -/
theorem primary_of_oneCharacter {code : UInt8} {comments body r : Bytes}
    (h : st.scanner.cursor.rest = ch '\'' :: (comments ++ (body ++ ch '\'' :: r)))
    (hcomments : Comments (body ++ ch '\'' :: r) comments)
    (hbody : OneCharacter (ch '\'' :: r) code body) :
    (primary operand p).run st = .ok (some (.char code p)) { st with scanner :=
      (st.scanner.advanceBy (comments.length + body.length + 2)).skip false } := by
  have hopened : (st.scanner.advanceBy 1).cursor.rest = comments ++ (body ++ ch '\'' :: r) :=
    Scanner.rest_advanceBy_length (w := [ch '\'']) h
  have hskip := Scanner.skip_comments hcomments hopened hbody.comment?
  have hrest := Scanner.rest_advanceBy_length hopened
  refine (primary_quote_iff h hskip).mpr ⟨body.length, code, ?_, ?_, rfl, ?_⟩
  · rw [hrest]
    exact character_of_oneCharacter hbody
  · rw [hrest, List.drop_left, leads_quote_iff]
    exact ⟨r, rfl⟩
  · rw [Scanner.advanceBy_advanceBy, Scanner.advanceBy_advanceBy]
    congr 3
    omega

/-- What is read as a character constant is comments, one character and the closing quote. -/
theorem exists_oneCharacter_of_primary (h : st.scanner.cursor.rest = ch '\'' :: t)
    (hrun : (primary operand p).run st = .ok e st') :
    ∃ code comments body r, t = comments ++ (body ++ ch '\'' :: r) ∧
      Comments (body ++ ch '\'' :: r) comments ∧ OneCharacter (ch '\'' :: r) code body ∧
      e = some (.char code p) ∧ st' = { st with scanner :=
        (st.scanner.advanceBy (comments.length + body.length + 2)).skip false } := by
  obtain ⟨n, code, hread, hclose, -, -⟩ := (primary_quote_iff h rfl).mp hrun
  have hopened : (st.scanner.advanceBy 1).cursor.rest = t :=
    Scanner.rest_advanceBy_length (w := [ch '\'']) h
  have hne : ((st.scanner.advanceBy 1).skip true).cursor.rest ≠ [] := by
    intro hnil
    rw [hnil] at hread
    cases hread
  -- the comments end where the character was read
  obtain ⟨comments, k, ht, hcomments, hk⟩ := Scanner.exists_comments hne
  rw [Scanner.skip_comments hcomments ht hk, Scanner.rest_advanceBy_length ht] at hread hclose
  obtain ⟨body, r, rfl, hbody, rfl⟩ := oneCharacter_of_character hread
  rw [List.drop_left, leads_quote_iff] at hclose
  obtain ⟨r, rfl⟩ := hclose
  obtain rfl := hopened.symm.trans ht
  rw [primary_of_oneCharacter operand p h hcomments hbody] at hrun
  cases hrun
  exact ⟨code, comments, body, r, rfl, hcomments, hbody, rfl, rfl⟩

end Quote

/-- **What is read as a character constant.** At an opening quote the parser succeeds exactly in
front of comments, one character and the closing quote, and goes on behind it. The text is a
constant in the strict sense exactly if no comment and no second quote stands behind the first. -/
theorem primary_character_iff (operand : Parser (Option Expr)) (p : Position) {st : ParserState}
    {t : Bytes} (h : st.scanner.cursor.rest = ch '\'' :: t) (e : Option Expr) (st' : ParserState) :
    ((primary operand p).run st = .ok e st' ↔
      ∃ code comments body r, t = comments ++ (body ++ ch '\'' :: r) ∧
        Comments (body ++ ch '\'' :: r) comments ∧ OneCharacter (ch '\'' :: r) code body ∧
        e = some (.char code p) ∧ st' = { st with scanner :=
          (st.scanner.advanceBy (comments.length + body.length + 2)).skip false }) ∧
    ((primary operand p).run st = .ok e st' →
      (Blank.comment? t = none ∧ t.head? ≠ some (ch '\'') ↔
        ∃ code, e = some (.char code p) ∧ IsConstant code t)) := by
  refine ⟨⟨exists_oneCharacter_of_primary h, ?_⟩, fun hrun => ⟨?_, ?_⟩⟩
  · rintro ⟨code, comments, body, r, rfl, hcomments, hbody, rfl, rfl⟩
    exact primary_of_oneCharacter operand p h hcomments hbody
  · rintro ⟨hcomment, hquote⟩
    obtain ⟨code, comments, body, r, rfl, hcomments, hbody, rfl, -⟩ :=
      exists_oneCharacter_of_primary h hrun
    obtain rfl := hcomments.eq_nil hcomment
    refine ⟨code, rfl, body, r, rfl, hbody, ?_⟩
    rintro rfl
    exact hquote rfl
  · rintro ⟨code, -, hconstant⟩
    refine ⟨?_, hconstant.head?⟩
    obtain ⟨body, r, rfl, hbody, -⟩ := hconstant
    exact hbody.comment?

/-- A hexadecimal escape is one character, and the text goes on behind its closing quote. -/
theorem primary_character_hex :
    let st := start (ascii "'\\x41' + 1") [] .initial
    let t := ascii "\\x41' + 1"
    let p := st.scanner.cursor.position
    st.scanner.cursor.rest = ch '\'' :: t ∧ IsConstant 0x41 t ∧
      ∃ st', (primary operand p).run st = .ok (some (.char 0x41 p)) st' ∧
        st'.scanner.cursor.rest = ascii "+ 1" := by
  intro st t p
  have hrest : st.scanner.cursor.rest = ch '\'' :: t := by decide +kernel
  have hiff := primary_character_iff operand p hrest
  have hrun := (hiff _ _).1.mpr ⟨0x41, [], ascii "\\x41", ascii " + 1", rfl, .nil,
    .escape (w := ascii "x41") rfl, rfl, rfl⟩
  obtain ⟨code, he, hconstant⟩ := ((hiff _ _).2 hrun).mp ⟨rfl, by decide⟩
  cases he
  exact ⟨hrest, hconstant, _, hrun, by decide +kernel⟩

/-- A comment behind the opening quote is skipped, and a quote may stand between two others. -/
theorem primary_character_commented :
    ¬ (∀ st t code p st', st.scanner.cursor.rest = ch '\'' :: t → t.head? ≠ some (ch '\'') →
      (primary operand p).run st = .ok (some (.char code p)) st' →
        IsConstant code t) ∧
    ¬ ∀ st t code p st', st.scanner.cursor.rest = ch '\'' :: t → Blank.comment? t = none →
      (primary operand p).run st = .ok (some (.char code p)) st' →
        IsConstant code t := by
  constructor
  · intro h
    have hrest : (start (ascii "'/* c */a'") [] .initial).scanner.cursor.rest =
        ch '\'' :: ascii "/* c */a'" := by decide +kernel
    have hcomments : Comments (ascii "a'") (ascii "/* c */" ++ []) :=
      .cons (@Comment.block _ (ascii " c ") (by decide)) .nil
    have hrun := primary_of_oneCharacter operand ⟨[], 1⟩ hrest hcomments
      (.byte (by decide))
    obtain ⟨body, r, ht, hbody, -⟩ := h _ _ _ _ _ hrest (by decide) hrun
    rcases hbody with hbyte | hescape
    · exact absurd (List.cons.inj (List.cons.inj ht).2).1 (by decide)
    · exact absurd (List.cons.inj ht).1 (by decide)
  · intro h
    have hrest : (start (ascii "'''") [] .initial).scanner.cursor.rest =
        ch '\'' :: ascii "''" := by decide +kernel
    have hrun := primary_of_oneCharacter operand ⟨[], 1⟩ (r := []) hrest .nil (.byte (by decide))
    exact (h _ _ _ _ _ hrest rfl hrun).head? rfl

end Grammar

end MiniC
