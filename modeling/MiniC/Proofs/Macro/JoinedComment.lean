import MiniC.Proofs.Macro.LineByLine
import MiniC.Proofs.Macro.Partition
import MiniC.Proofs.Source.AppendedLine

/-!
# A comment joined to a line

The preprocessor knows no comments: `//…` on a line is expanded as any other text is, and its
expansion is a comment again (`exists_expandAll_comment`). What becomes of a line with a comment
joined to it follows from what becomes of the line. A directive stays one and a line that starts
with `#` is kept as it is, for a comment starts with no blank, no letter and no `#`
(`Directive.ofLine?_append`). In any other line the tokens are the ones found before and those of
the comment, for no token goes on in a slash (`exists_common_front`).

* `Yields.joined`: both yield the same, or what the second yields is what the first yields with a
  comment joined to it.
-/

namespace MiniC.Macro

/-! ### Directives -/

namespace Directive

/-- The byte is no part of a mark, a keyword or the blanks around them. -/
def isForeign (b : UInt8) : Bool := !isBlank b && !isIdent b && b != ch '#'

section Append
variable {k : Bytes} (hk : k.head?.all isForeign = true)
include hk

theorem not_blank_of_foreign : k.head?.any isBlank = false ∧
    k.head?.any (fun b => b == ch ' ' || b == 0x09) = false ∧ k.head?.any isIdent = false ∧
    k.head? ≠ some (ch '#') := by
  have hclass : ∀ b : UInt8, isForeign b = true → isBlank b = false ∧
      (b == ch ' ' || b == 0x09) = false ∧ isIdent b = false ∧ b ≠ ch '#' :=
    forall_byte (by decide +kernel)
  cases k with
  | nil => simp
  | cons b k =>
    obtain ⟨h₁, h₂, h₃, h₄⟩ := hclass b hk
    exact ⟨h₁, h₂, h₃, fun hb => h₄ (Option.some.inj hb)⟩

theorem afterHash?_append (line : Bytes) :
    afterHash? (line ++ k) = (afterHash? line).map (· ++ k) := by
  obtain ⟨hblank, -, -, hhash⟩ := not_blank_of_foreign hk
  unfold afterHash?
  rw [dropWhile_append_of_head hblank]
  cases line.dropWhile isBlank with
  | nil =>
    cases k with
    | nil => rfl
    | cons b k =>
      have hb : b ≠ ch '#' := fun hb => hhash (congrArg some hb)
      simp [hb]
  | cons b rest =>
    by_cases hb : b = ch '#'
    · simp [hb, dropWhile_append_of_head hblank]
    · simp [hb]

/-- A directive takes what is behind it to its arguments. -/
theorem ofLine?_append (hn : (0x0a : UInt8) ∉ k) (line : Bytes) :
    ofLine? (line ++ k) = (ofLine? line).map fun d => ⟨d.keyword, d.arguments ++ k⟩ := by
  obtain ⟨hblank, -, hident, -⟩ := not_blank_of_foreign hk
  unfold ofLine?
  rw [afterHash?_append hk]
  cases afterHash? line with
  | none => rfl
  | some body =>
    simp only [Option.map_some, Option.bind_eq_bind, Option.bind_some,
      takeWhile_append_of_head hident, dropWhile_append_of_head hident]
    cases Keyword.ofSpelling? (body.takeWhile isIdent) with
    | none => rfl
    | some keyword =>
      simp only [Option.bind_some, dropWhile_append_of_head hblank]
      split_ifs with h₁ h₂ h₂
      · rfl
      · simp_all
      · simp_all
      · rfl

theorem isHashLine_append (line : Bytes) : isHashLine (line ++ k) = isHashLine line := by
  obtain ⟨-, hspace, -, hhash⟩ := not_blank_of_foreign hk
  unfold isHashLine
  rw [dropWhile_append_of_head hspace]
  cases line.dropWhile fun b => b == ch ' ' || b == 0x09 with
  | nil => simpa using hhash
  | cons b rest => rfl

end Append

end Directive

/-! ### Tokens in front of a comment -/

open Token

/-- No token goes on with the byte. -/
def isApart (b : UInt8) : Bool := b == ch '/' || b == ch '\\'

theorem class_of_isApart : ∀ b : UInt8, isApart b = true → isSpace b = false ∧ isIdent b = false ∧
    isDigit b = false ∧ isSign b = false ∧ b ≠ ch '.' :=
  forall_byte (by decide +kernel)

theorem not_runsOn_of_isApart {kind : TokenKind} {w r : Bytes} (hw : w ≠ [])
    (hr : r.head?.any isApart = true) : runsOn kind w r = false := by
  obtain ⟨b, hb, hapart⟩ := (Option.any_eq_true _ _).1 hr
  obtain ⟨-, -, hdigit, hsign, hpoint⟩ := class_of_isApart b hapart
  cases kind with
  | number => simp [runsOn, hb, hsign, hpoint]
  | punctuator =>
    have hlast : ∀ v ∈ punctuators, v.getLast?.any isApart = true → v.length = 1 := by
      decide +kernel
    have hnot : punctuators.contains (w ++ [b]) = false := by
      rw [Bool.eq_false_iff, Ne, List.contains_iff_mem]
      intro hmem
      have hlength := hlast _ hmem (by simpa using hapart)
      have hpos := List.length_pos_iff.2 hw
      rw [List.length_append, List.length_singleton] at hlength
      omega
    simp [runsOn, hb, hdigit, -List.contains_eq_mem, hnot]
  | _ => rfl

/-- A class that holds no byte that is apart is missed behind a token as it was before. -/
theorem head?_any_of_replace {p : UInt8 → Bool} {r r' : Bytes}
    (hp : ∀ b, isApart b = true → p b = false)
    (hr : r'.head? = r.head? ∨ r'.head?.any isApart = true) (h : r.head?.any p = false) :
    r'.head?.any p = false := by
  rcases hr with hsame | hapart
  · rwa [hsame]
  · obtain ⟨b, hb, hapart⟩ := (Option.any_eq_true _ _).1 hapart
    rw [hb]
    exact hp b hapart

/-- What is cut off does not depend on the text behind it, if that starts as before or with a byte
that is apart. -/
theorem lexeme_replace {kind : TokenKind} {b : UInt8} {w r r' : Bytes}
    (h : lexeme b (b :: w ++ r) = .ok (kind, w.length + 1))
    (hr : r'.head? = r.head? ∨ r'.head?.any isApart = true) :
    lexeme b (b :: w ++ r') = .ok (kind, w.length + 1) := by
  obtain ⟨u, v, huv, hlength, hspell, hafter⟩ := lexeme_spelled h
  obtain ⟨rfl, rfl⟩ : b :: w = u ∧ r = v := List.append_inj huv hlength
  by_cases hk : kind = .whitespace
  · subst hk
    cases hspell with
    | whitespace _ hw =>
      have hb := hw b List.mem_cons_self
      have hspaces : ∀ k : Bytes, lexeme b (b :: w ++ k) =
          .ok (.whitespace, w.length + 1 + (k.takeWhile isSpace).length) := by
        intro k
        rw [lexeme, if_pos hb, List.takeWhile_append_of_pos hw, List.length_append,
          List.length_cons]
      rw [hspaces, Except.ok.injEq, Prod.mk.injEq] at h
      have hnone : r.takeWhile isSpace = [] := List.eq_nil_of_length_eq_zero (by omega)
      have hstop : r.head?.any isSpace = false := by
        cases r with
        | nil => rfl
        | cons c r =>
          rw [List.takeWhile_cons] at hnone
          split_ifs at hnone with hc
          simpa using hc
      have hstop' := head?_any_of_replace (fun c hc => (class_of_isApart c hc).1) hr hstop
      rw [hspaces, Scan.takeWhile_isSpace_of_head hstop']
      rfl
  · refine lexeme_front hspell hk (fun hwordy => ?_) ?_
    · exact head?_any_of_replace (fun c hc => (class_of_isApart c hc).2.1) hr (hafter hwordy)
    · rcases hr with hsame | hapart
      · have hruns : runsOn kind (b :: w) r' = runsOn kind (b :: w) r := by
          simp only [runsOn, hsame]
        rw [hruns, Bool.eq_false_iff]
        exact fun hlonger => Nat.lt_irrefl _ (lexeme_runsOn hspell hlonger h)
      · exact not_runsOn_of_isApart (List.cons_ne_nil b w) hapart

theorem next?_replace {column stop : Nat} {w r r' : Bytes} {token : Token}
    (h : next? (column, w ++ r) = some (token, (stop, r)))
    (hr : r'.head? = r.head? ∨ r'.head?.any isApart = true) :
    next? (column, w ++ r') = some (token, (stop, r')) := by
  have hcut := cut_of_next? h
  obtain ⟨kind, text, at'⟩ := token
  obtain rfl : at' = column := hcut.column
  obtain rfl : w = text := List.append_cancel_right hcut.text
  obtain rfl : stop = at' + w.length := hcut.next
  obtain ⟨b, hb, hlexeme⟩ := hcut.lexeme
  obtain ⟨w, rfl⟩ := List.head?_eq_some_iff.1 hb
  have hreplaced := lexeme_replace hlexeme hr
  rw [List.cons_append] at hreplaced ⊢
  simp [next?, hreplaced]

theorem NumberBody.class_of_mem {w : Bytes} (h : NumberBody w) :
    ∀ b ∈ w, isInNumber b = true ∨ isSign b = true := by
  induction h with
  | nil => simp
  | cons hb _ ih => exact List.forall_mem_cons.2 ⟨.inl hb, ih⟩
  | exponent hb hc _ ih =>
    exact List.forall_mem_cons.2 ⟨.inl (isInNumber_of_isExponentMark _ hb),
      List.forall_mem_cons.2 ⟨.inr hc, ih⟩⟩

/-- Only the token `?` ends with a question mark. -/
theorem Spelling.eq_mark {kind : TokenKind} {w : Bytes} (h : Spelling kind w)
    (hlast : w.getLast? = some (ch '?')) : w = [ch '?'] := by
  have hmem := List.mem_of_getLast? hlast
  cases h with
  | whitespace _ hw => exact absurd (hw _ hmem) (by decide)
  | identifier hw => exact absurd (isIdent_of_isWord hw _ hmem) (by decide)
  | number _ hbody => exact absurd (hbody.class_of_mem _ hmem) (by decide)
  | string hbody =>
    rw [List.getLast?_cons, hbody.getLast?] at hlast
    exact absurd (Option.some.inj hlast) (by decide)
  | charConst hbody =>
    rw [List.getLast?_cons, hbody.getLast?] at hlast
    exact absurd (Option.some.inj hlast) (by decide)
  | punctuator hw =>
    have hmarks : ∀ v ∈ punctuators, v.getLast? = some (ch '?') → v = [ch '?'] := by
      decide +kernel
    exact hmarks w hw hlast

/-- A token that starts in front of question marks ends there, too. -/
theorem Spelling.exists_before_marks {kind : TokenKind} {w r q k : Bytes} (hw : Spelling kind w)
    (hk : ∀ b ∈ k, b = ch '?') (hq : q ≠ []) (h : q ++ k = w ++ r) :
    ∃ q', q = w ++ q' ∧ r = q' ++ k := by
  by_cases hlast : w.getLast? = some (ch '?')
  · obtain ⟨b, q, rfl⟩ := List.exists_cons_of_ne_nil hq
    rw [hw.eq_mark hlast, List.cons_append, List.singleton_append, List.cons.injEq] at h
    rw [hw.eq_mark hlast, h.1]
    exact ⟨q, rfl, h.2.symm⟩
  · exact MiniC.exists_before_marks hk hlast h

/-- **Two lines that start alike are cut alike,** up to where the first ends or goes on with
question marks and the second goes on with a byte that is apart. -/
theorem exists_common_front {k k' : Bytes} {stop stop' : Rest} (hk : ∀ b ∈ k, b = ch '?')
    (hk' : k'.head?.any isApart = true) (hstop : fault? stop = none) {tokens : List Token} :
    ∀ {column : Nat} {q : Bytes} {tokens' : List Token},
      Gathered next? (column, q ++ k) tokens stop → Gathered next? (column, q ++ k') tokens' stop' →
      ∃ front back back' column', tokens = front ++ back ∧ tokens' = front ++ back' ∧
        Gathered next? (column', k) back stop ∧ Gathered next? (column', k') back' stop' := by
  induction tokens with
  | nil =>
    intro column q tokens' h h'
    obtain ⟨hjoin, -⟩ := cuts_of_gathered h hstop
    obtain ⟨rfl, rfl⟩ := List.append_eq_nil_iff.1 hjoin.symm
    exact ⟨[], [], tokens', column, rfl, rfl, h, h'⟩
  | cons token tokens ih =>
    intro column q tokens' h h'
    by_cases hq : q = []
    · subst hq
      exact ⟨[], token :: tokens, tokens', column, rfl, rfl, h, h'⟩
    cases h with
    | @take _ r _ _ _ hnext hrest =>
      obtain ⟨column', r⟩ := r
      have hcut := cut_of_next? hnext
      obtain ⟨q', rfl, rfl⟩ := hcut.spelling.exists_before_marks hk hq hcut.text
      have hhead : (q' ++ k').head? = (q' ++ k).head? ∨ (q' ++ k').head?.any isApart = true := by
        cases q' with
        | nil => exact .inr hk'
        | cons b q' => exact .inl rfl
      rw [List.append_assoc] at hnext h'
      obtain ⟨more, rfl, hmore⟩ := (Gathered.take_iff (next?_replace hnext hhead)).1 h'
      obtain ⟨front, back, back', column'', rfl, rfl, hback, hback'⟩ := ih hrest hmore
      exact ⟨token :: front, back, back', column'', rfl, rfl, hback, hback'⟩

/-- No token starts with a backslash. -/
theorem Spelling.head_ne_backslash {kind : TokenKind} {b : UInt8} {w : Bytes}
    (h : Spelling kind (b :: w)) : b ≠ ch '\\' := by
  rintro rfl
  cases h with
  | whitespace _ hw => exact absurd (hw _ List.mem_cons_self) (by decide)
  | identifier hw => exact absurd (isIdent_of_isWord hw _ List.mem_cons_self) (by decide)
  | number _ hbody => exact absurd (hbody.class_of_mem _ List.mem_cons_self) (by decide)
  | punctuator hw => exact absurd (isMark_of_mem _ hw _ List.mem_cons_self) (by decide)

theorem not_gathered_backslash {column : Nat} {s : Bytes} {tokens : List Token} {stop : Rest}
    (h : Gathered next? (column, ch '\\' :: s) tokens stop) : fault? stop ≠ none := by
  cases h with
  | stop hnext =>
    rcases next?_eq_none hnext with ⟨hnil, -⟩ | ⟨-, f, hf⟩
    · cases hnil
    · rw [hf]
      exact Option.some_ne_none _
  | @take _ _ _ token _ hnext _ =>
    have hcut := cut_of_next? hnext
    have htext := hcut.text
    cases hw : token.text with
    | nil => exact absurd hw hcut.spelling.ne_nil
    | cons b w =>
      rw [hw, List.cons_append] at htext
      exact absurd (List.cons.inj htext).1.symm ((hw ▸ hcut.spelling).head_ne_backslash)

/-! ### Expansion -/

section Line
variable {t : Table} {place : Position}

/-- A token that starts with a slash is a punctuator. -/
theorem exists_slash {tokens : List Token} {s : Bytes} (hjoin : Token.join tokens = ch '/' :: s)
    (hcuts : Cuts (tokens.map Token.piece)) :
    ∃ token more, tokens = token :: more ∧ token.kind = .punctuator ∧
      (token.text = [ch '/'] ∨ token.text = [ch '/', ch '=']) ∧
      Cuts (more.map Token.piece) := by
  have hslash : ∀ w ∈ Token.punctuators, w.head? = some (ch '/') →
      w = [ch '/'] ∨ w = [ch '/', ch '='] := by decide
  cases tokens with
  | nil => cases hjoin
  | cons token more =>
    obtain ⟨⟨b, hb, hlexeme⟩, hmore⟩ := hcuts
    have htext : token.text ++ piecesText (more.map Token.piece) = ch '/' :: s := by
      rw [piecesText_map_piece]
      exact hjoin
    obtain rfl : b = ch '/' := by
      cases hfirst : token.text with
      | nil =>
        rw [hfirst] at hb
        cases hb
      | cons x rest =>
        rw [hfirst, List.cons_append, List.cons.injEq] at htext
        rw [hfirst, List.head?_cons, htext.1] at hb
        exact (Option.some.inj hb).symm
    have hmem : [ch '/'] ∈ Token.punctuators := by decide
    obtain ⟨n, hn, -⟩ := exists_punctuatorLength? hmem s
    obtain ⟨w, r, hs, rfl, hw⟩ := exists_of_punctuatorLength? hn
    have hnumber : Token.startsNumber (ch '/' :: s) = false := startsNumber_punctuator hmem
    rw [htext, lexeme_mark (by decide) hnumber hn, Except.ok.injEq,
      Prod.mk.injEq] at hlexeme
    obtain ⟨rfl, -⟩ := List.append_inj (htext.trans hs) hlexeme.2.symm
    refine ⟨token, more, rfl, hlexeme.1.symm, hslash _ hw ?_, hmore⟩
    exact hb

/-- The expansion of a comment is a comment. -/
theorem exists_expandAll_comment {levels : Nat} {active : List Bytes} {tokens out : List Token}
    {c : Bytes} (hjoin : Token.join tokens = ascii "//" ++ c)
    (hcuts : Cuts (tokens.map Token.piece))
    (h : expandAll (expandToken t place levels active) tokens = .ok out) :
    ∃ body, Token.join out = ascii "//" ++ body := by
  -- the first token is one slash, since `//` is no punctuator
  obtain ⟨first, tokens, rfl, hfirst, hslash, hcuts⟩ := exists_slash hjoin hcuts
  obtain hone : first.text = [ch '/'] := by
    rcases hslash with hone | htwo
    · exact hone
    · rw [Token.join, List.flatMap_cons, htwo] at hjoin
      exact absurd (List.cons.inj (List.cons.inj hjoin).2).1 (by decide)
  have hrest : Token.join tokens = ch '/' :: c := by
    rw [Token.join, List.flatMap_cons, hone] at hjoin
    exact (List.cons.inj hjoin).2
  obtain ⟨second, tokens, rfl, hsecond, hslash, -⟩ := exists_slash hrest hcuts
  -- both are kept
  have hkeep : ∀ token : Token, token.kind = .punctuator →
      expandToken t place levels active token = .ok [token] := by
    intro token hkind
    refine expandToken_of_none ?_
    simp [Token.replacement?, hkind]
  obtain ⟨front, back, hfront, hback, rfl⟩ := expandAll_cons_ok.1 h
  obtain ⟨next, last, hnext, -, rfl⟩ := expandAll_cons_ok.1 hback
  rw [hkeep first hfirst] at hfront
  rw [hkeep second hsecond] at hnext
  cases hfront
  cases hnext
  refine ⟨second.text.tail ++ Token.join last, ?_⟩
  have hslashes : ascii "//" = [ch '/', ch '/'] := rfl
  rcases hslash with htext | htext
  · simp [Token.join, hone, htext, hslashes]
  · simp [Token.join, hone, htext, hslashes]

theorem exists_expandLine_comment {c text : Bytes}
    (h : expandLine t place (ascii "//" ++ c) = .ok text) : ∃ body, text = ascii "//" ++ body := by
  obtain ⟨tokens, out, htokens, hout, rfl⟩ := expandLine_ok.1 h
  obtain ⟨hjoin, hcuts⟩ := cuts_of_ofLine htokens
  exact exists_expandAll_comment hjoin hcuts hout

theorem expandAll_append_ok {expand : Token → Except Error (List Token)}
    {front back out : List Token} : expandAll expand (front ++ back) = .ok out ↔
      ∃ out₁ out₂, expandAll expand front = .ok out₁ ∧ expandAll expand back = .ok out₂ ∧
        out = out₁ ++ out₂ := by
  induction front generalizing out with
  | nil =>
    have hnil : expandAll expand [] = .ok [] := rfl
    simp [hnil]
  | cons token front ih =>
    simp only [List.cons_append, expandAll_cons_ok, ih]
    constructor
    · rintro ⟨first, _, hfirst, ⟨out₁, out₂, h₁, h₂, rfl⟩, rfl⟩
      exact ⟨first ++ out₁, out₂, ⟨first, out₁, hfirst, h₁, rfl⟩, h₂, by simp⟩
    · rintro ⟨_, out₂, ⟨first, out₁, hfirst, h₁, rfl⟩, h₂, rfl⟩
      exact ⟨first, out₁ ++ out₂, hfirst, ⟨out₁, out₂, h₁, h₂, rfl⟩, by simp⟩

/-- **The expansion of a line with a comment joined to it** is the expansion of the line with a
comment joined to it. Behind two question marks there is none. -/
theorem expandLine_joined {q old new text text' : Bytes} (ht : t.OneLined)
    (hend : JoinedEnd old new) (hq : (0x0a : UInt8) ∉ q)
    (h : expandLine t place (q ++ old) = .ok text)
    (h' : expandLine t place (q ++ new) = .ok text') :
    ∃ body, (0x0a : UInt8) ∉ body ∧ text' = text ++ (ascii "//" ++ body) := by
  have hline : (0x0a : UInt8) ∉ text' := by
    refine newline_notMem_expandLine ht (fun hmem => ?_) h'
    exact (List.mem_append.1 hmem).elim hq hend.newline_notMem_new
  have hapart : new.head?.any isApart = true := by
    cases hend with
    | behind _ => rfl
    | trigraph _ => rfl
  obtain ⟨tokens, out, htokens, hout, rfl⟩ := expandLine_ok.1 h
  obtain ⟨tokens', out', htokens', hout', rfl⟩ := expandLine_ok.1 h'
  obtain ⟨stop, hrun, hstop⟩ := exists_gathered_of_ofLine htokens
  obtain ⟨stop', hrun', hstop'⟩ := exists_gathered_of_ofLine htokens'
  obtain ⟨front, back, back', column, rfl, rfl, hback, hback'⟩ :=
    exists_common_front hend.marks hapart hstop hrun hrun'
  cases hend with
  | behind _ =>
    obtain rfl : back = [] := by
      cases hback with
      | stop _ => rfl
      | take hnext _ => cases hnext
    rw [List.append_nil] at hout
    obtain ⟨out₁, out₂, h₁, h₂, rfl⟩ := expandAll_append_ok.1 hout'
    cases hout.symm.trans h₁
    obtain ⟨hjoin, hcuts⟩ := cuts_of_gathered hback' hstop'
    obtain ⟨body, hbody⟩ := exists_expandAll_comment hjoin hcuts h₂
    have htext : Token.join (out ++ out₂) = Token.join out ++ (ascii "//" ++ body) := by
      rw [← hbody, Token.join, List.flatMap_append]
      rfl
    refine ⟨body, fun hmem => hline ?_, htext⟩
    rw [htext]
    exact List.mem_append_right _ (List.mem_append_right _ hmem)
  | trigraph _ => exact absurd hstop' (not_gathered_backslash hback')

/-- How the text of a line, or of all lines, changes when a comment is joined to its end. -/
def Commented (text text' : Bytes) : Prop :=
  text' = text ∨
    ∃ front old new, text = front ++ old ∧ text' = front ++ new ∧ JoinedEnd old new

/-- **What a line with a comment joined to it yields.** A definition yields nothing with the comment
as without it; in every other case the text ends with a comment then. -/
theorem Yields.joined {q old new text text' : Bytes} (ht : t.OneLined) (hend : JoinedEnd old new)
    (hq : (0x0a : UInt8) ∉ q) (h : Yields t place (q ++ old) text)
    (h' : Yields t place (q ++ new) text') : Commented text text' := by
  have hforeign : old.head?.all Directive.isForeign = true ∧
      new.head?.all Directive.isForeign = true := by
    cases hend with
    | behind _ => exact ⟨rfl, rfl⟩
    | trigraph _ => exact ⟨rfl, rfl⟩
  have hold := Directive.ofLine?_append hforeign.1 hend.newline_notMem_old q
  have hnew := Directive.ofLine?_append hforeign.2 hend.newline_notMem_new q
  have hhash := (Directive.isHashLine_append hforeign.1 q).trans
    (Directive.isHashLine_append hforeign.2 q).symm
  cases hd : Directive.ofLine? q with
  | some d =>
    rw [hd, Option.map_some] at hold hnew
    left
    cases h with
    | definition _ _ =>
      cases h' with
      | definition _ _ => rfl
      | verbatim hnone _ => cases hnew.symm.trans hnone
      | expansion hnone _ _ => cases hnew.symm.trans hnone
    | verbatim hnone _ => cases hold.symm.trans hnone
    | expansion hnone _ _ => cases hold.symm.trans hnone
  | none =>
    rw [hd, Option.map_none] at hold hnew
    right
    cases h with
    | definition hsome _ => cases hold.symm.trans hsome
    | verbatim _ hverbatim =>
      cases h' with
      | definition hsome _ => cases hnew.symm.trans hsome
      | verbatim _ _ => exact ⟨q, old, new, rfl, rfl, hend⟩
      | expansion _ hplain _ => cases hverbatim.symm.trans (hhash.trans hplain)
    | expansion _ hplain hexpand =>
      cases h' with
      | definition hsome _ => cases hnew.symm.trans hsome
      | verbatim _ hverbatim => cases hverbatim.symm.trans (hhash.symm.trans hplain)
      | expansion _ _ hexpand' =>
        obtain ⟨body, hbody, htext⟩ := expandLine_joined ht hend hq hexpand hexpand'
        exact ⟨text, [], _, (List.append_nil text).symm, htext, .behind hbody⟩

end Line

end MiniC.Macro
