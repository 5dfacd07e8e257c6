import Mathlib.Data.List.Chain
import MiniC.Proofs.Macro.Expansion
import MiniC.Proofs.Macro.Verbatim

/-!
# Expanded text, cut again

Expansion puts the texts of tokens side by side without separators, so the tokens found in the
result need not be the ones that were put together. What is kept is that tokens are well cut
(`WellCut`): no letter or digit follows a word or a number (`Expansion.wellCut`). For a macro stands
between bytes that are no letters or digits, and what replaces it stands there too.

* `expandLine_idempotent`: the text of an expansion is its own expansion. Cut again, it falls apart
  at places where tokens met (`Composed`), and each of its identifiers was one before.
* `relex_expansion`: the tokens found again are the ones put together, apart from white space,
  exactly if none of them runs on into its neighbour.
-/

namespace MiniC.Macro

open Token

/-! ### Well-cut tokens -/

/-- If the first token is a word or a number, the second starts with no letter or digit. -/
def Token.Apart (a b : Token) : Prop := a.kind.isWordy = true → b.text.head?.any isIdent = false

/-- The tokens are spelled as they should be, and neighbours are apart. -/
structure WellCut (tokens : List Token) : Prop where
  spelled : ∀ token ∈ tokens, Spelling token.kind token.text
  apart : tokens.IsChain Apart

theorem WellCut.tail {token : Token} {tokens : List Token} (h : WellCut (token :: tokens)) :
    WellCut tokens where
  spelled u hu := h.spelled u (List.mem_cons_of_mem token hu)
  apart := (List.isChain_cons.1 h.apart).2

/-- The text of tokens starts as their first one does. -/
theorem head_join {tokens : List Token} (h : ∀ token ∈ tokens, Spelling token.kind token.text) :
    (join tokens).head? = tokens.head?.bind fun token => token.text.head? := by
  cases tokens with
  | nil => rfl
  | cons token tokens =>
    have hne := (h token List.mem_cons_self).ne_nil
    cases htext : token.text with
    | nil => exact absurd htext hne
    | cons b w => simp [join, htext]

/-- No letter or digit follows a word or a number in the text. -/
theorem WellCut.head_tail {token : Token} {tokens : List Token} (h : WellCut (token :: tokens))
    (hw : token.kind.isWordy = true) : (join tokens).head?.any isIdent = false := by
  rw [head_join h.tail.spelled]
  cases tokens with
  | nil => rfl
  | cons u tokens => exact (List.isChain_cons_cons.1 h.apart).1 hw

theorem wellCut_of_cuts : ∀ {tokens : List Token}, Cuts (tokens.map piece) → WellCut tokens
  | [], _ => ⟨by simp, .nil⟩
  | token :: tokens, h => by
    obtain ⟨⟨b, hb, hl⟩, hcuts⟩ := h
    have ih := wellCut_of_cuts hcuts
    rw [piecesText_map_piece] at hl
    obtain ⟨s, hs⟩ : ∃ s, token.text ++ join tokens = b :: s := by
      cases hw : token.text with
      | nil => rw [hw] at hb; cases hb
      | cons c w =>
        rw [hw] at hb
        cases hb
        exact ⟨w ++ join tokens, rfl⟩
    rw [hs] at hl
    obtain ⟨w, r, hwr, hlen, hspell, hafter⟩ := lexeme_spelled hl
    obtain ⟨rfl, rfl⟩ := List.append_inj (hs.trans hwr) hlen
    refine ⟨?_, List.isChain_cons.2 ⟨?_, ih.apart⟩⟩
    · intro u hu
      rcases List.mem_cons.1 hu with rfl | hu
      · exact hspell
      · exact ih.spelled u hu
    · intro u hu hwordy
      have hnext := hafter hwordy
      rw [head_join ih.spelled, Option.mem_def.1 hu] at hnext
      exact hnext

theorem wellCut_of_ofLine {line : Bytes} {tokens : List Token} (h : ofLine line = .ok tokens) :
    WellCut tokens :=
  wellCut_of_cuts (cuts_of_ofLine h).2

/-! ### Expansion -/

section Expansion
variable {t : Table} {place : Position} {tokens out : List Token}

/-- Behind a word or a number stands no identifier, so no macro. -/
theorem replacement?_of_apart {a b : Token} (h : a.Apart b) (ha : a.kind.isWordy = true)
    (hb : Spelling b.kind b.text) : b.replacement? t = none := by
  have hhead := h ha
  unfold Token.replacement?
  split
  · next hk =>
    rw [hk] at hb
    cases hb with
    | identifier hw =>
      cases hs : b.text with
      | nil => rw [hs] at hw; cases hw
      | cons c w =>
        rw [hs, isWord, Bool.and_eq_true] at hw
        rw [hs, List.head?_cons, Option.any_some, isIdent_of_isIdentStart hw.1] at hhead
        cases hhead
  · rfl

/-- A first token that is no macro stays first. -/
theorem Expansion.head? (h : Expansion t place tokens out)
    (hfirst : ∀ token ∈ tokens.head?, token.replacement? t = none) : out.head? = tokens.head? := by
  cases h with
  | nil => rfl
  | keep _ _ => rfl
  | replace hr _ _ _ =>
    rw [hfirst _ rfl] at hr
    cases hr

/-- What stands behind a word or a number stays there. -/
theorem Expansion.head?_of_wordy {token : Token} (h : Expansion t place tokens out)
    (hc : WellCut (token :: tokens)) (hw : token.kind.isWordy = true) :
    ∀ u ∈ out.head?, u.text.head?.any isIdent = false := by
  have happart := (List.isChain_cons.1 hc.apart).1
  have hhead := h.head? fun u hu =>
    replacement?_of_apart (happart u hu) hw (hc.tail.spelled u (List.mem_of_mem_head? hu))
  intro u hu
  rw [hhead] at hu
  exact happart u hu hw

/-- **Expansion keeps tokens well cut and leaves no macro.** -/
theorem Expansion.wellCut (h : Expansion t place tokens out) : WellCut tokens →
    WellCut out ∧ ∀ token ∈ out, token.replacement? t = none := by
  induction h with
  | nil => exact fun h => ⟨h, by simp⟩
  | @keep token tokens out hr hrest ih =>
    intro hc
    obtain ⟨hout, hnone⟩ := ih hc.tail
    refine ⟨⟨?_, List.isChain_cons.2 ⟨?_, hout.apart⟩⟩, ?_⟩
    · exact List.forall_mem_cons.2 ⟨hc.spelled token List.mem_cons_self, hout.spelled⟩
    · exact fun u hu hw => hrest.head?_of_wordy hc hw u hu
    · exact List.forall_mem_cons.2 ⟨hr, hnone⟩
  | @replace token r tokens inner front back hr hinner _ hrest ihfront ihback =>
    intro hc
    obtain ⟨hfront, hfrontNone⟩ := ihfront (wellCut_of_ofLine hinner)
    obtain ⟨hback, hbackNone⟩ := ihback hc.tail
    have hwordy : token.kind.isWordy = true := by
      rw [(Token.replacement?_eq_some.1 hr).1]
      rfl
    refine ⟨⟨?_, List.isChain_append.2 ⟨hfront.apart, hback.apart, ?_⟩⟩, ?_⟩
    · exact List.forall_mem_append.2 ⟨hfront.spelled, hback.spelled⟩
    -- the macro was a word, so whatever ends the replacement is followed by no letter or digit
    · exact fun _ _ u hu _ => hrest.head?_of_wordy hc hwordy u hu
    · exact List.forall_mem_append.2 ⟨hfrontNone, hbackNone⟩

theorem wellCut_of_expandTokens {line : Bytes} (hline : ofLine line = .ok tokens)
    (h : expandTokens t place tokens = .ok out) :
    WellCut out ∧ ∀ token ∈ out, token.replacement? t = none :=
  (expansion_of_expandTokens h).wellCut (wellCut_of_ofLine hline)

end Expansion

/-! ### Texts that tokens make up -/

/-- The text is made of white space, marks, and tokens of the other kinds, where no letter or digit
follows a word or a number; its identifiers are in `ids`. -/
inductive Composed (ids : Bytes → Prop) : Bytes → Prop
  | nil : Composed ids []
  | space {b : UInt8} {s : Bytes} : isSpace b = true → Composed ids s → Composed ids (b :: s)
  | mark {b : UInt8} {s : Bytes} : isMark b = true → Composed ids s → Composed ids (b :: s)
  | token {kind : TokenKind} {b : UInt8} {w s : Bytes} : Spelling kind (b :: w) →
      kind ≠ .whitespace → kind ≠ .punctuator →
      (kind.isWordy = true → s.head?.any isIdent = false) →
      (kind = .identifier → ids (b :: w)) → Composed ids s → Composed ids (b :: (w ++ s))

namespace Composed

variable {ids : Bytes → Prop} {s : Bytes}

theorem spaces {w : Bytes} (h : ∀ b ∈ w, isSpace b = true) (hs : Composed ids s) :
    Composed ids (w ++ s) := by
  induction w with
  | nil => exact hs
  | cons b w ih =>
    exact .space (h b List.mem_cons_self) (ih fun c hc => h c (List.mem_cons_of_mem b hc))

theorem marks {w : Bytes} (h : ∀ b ∈ w, isMark b = true) (hs : Composed ids s) :
    Composed ids (w ++ s) := by
  induction w with
  | nil => exact hs
  | cons b w ih =>
    exact .mark (h b List.mem_cons_self) (ih fun c hc => h c (List.mem_cons_of_mem b hc))

/-- Well-cut tokens make up a composed text. -/
theorem of_wellCut : ∀ {tokens : List Token}, WellCut tokens →
    (∀ token ∈ tokens, token.kind = .identifier → ids token.text) → Composed ids (join tokens)
  | [], _, _ => .nil
  | ⟨kind, w, column⟩ :: tokens, h, hids => by
    have ih := of_wellCut h.tail fun u hu => hids u (List.mem_cons_of_mem _ hu)
    have hspell := h.spelled _ List.mem_cons_self
    have hafter := h.head_tail
    have hjoin : join (⟨kind, w, column⟩ :: tokens) = w ++ join tokens := rfl
    rw [hjoin]
    by_cases hspace : kind = .whitespace
    · subst hspace
      cases hspell with
      | whitespace _ hw => exact spaces hw ih
    by_cases hpunct : kind = .punctuator
    · subst hpunct
      cases hspell with
      | punctuator hw => exact marks (isMark_of_mem w hw) ih
    cases w with
    | nil => exact absurd rfl hspell.ne_nil
    | cons b w => exact .token hspell hspace hpunct hafter (hids _ List.mem_cons_self) ih

theorem dropWhile_isSpace (h : Composed ids s) : Composed ids (s.dropWhile isSpace) := by
  induction h with
  | nil => exact .nil
  | space hb _ ih => rwa [List.dropWhile_cons_of_pos hb]
  | @mark b s hb hs _ =>
    rw [List.dropWhile_cons_of_neg (by simp [(class_of_isMark b hb).1])]
    exact .mark hb hs
  | @token kind b w s hspell hspace hpunct hafter hids hs _ =>
    rw [List.dropWhile_cons_of_neg (by simp [hspell.not_isSpace hspace])]
    exact .token hspell hspace hpunct hafter hids hs

/-- A mark other than the point is cut off by itself. -/
theorem of_mark {b : UInt8} (h : Composed ids (b :: s)) (hb : isMark b = true) (hp : b ≠ ch '.') :
    Composed ids s := by
  cases h with
  | space hspace _ =>
    rw [(class_of_isMark b hb).1] at hspace
    cases hspace
  | mark _ hs => exact hs
  | token hspell _ hpunct _ _ _ => exact absurd (hspell.punctuator_of_isMark hb hp) hpunct

theorem of_marks {w : Bytes} (h : Composed ids (w ++ s))
    (hw : ∀ b ∈ w, isMark b = true ∧ b ≠ ch '.') : Composed ids s := by
  induction w with
  | nil => exact h
  | cons b w ih =>
    obtain ⟨hb, hp⟩ := hw b List.mem_cons_self
    exact ih (h.of_mark hb hp) fun c hc => hw c (List.mem_cons_of_mem b hc)

theorem isMark_of_isSign : ∀ b : UInt8, isSign b = true → isMark b = true ∧ b ≠ ch '.' :=
  forall_byte (by decide +kernel)

/-- A number ends in front of a composed text where a part of it ends. -/
def EndsNumber (ids : Bytes → Prop) (s : Bytes) : Prop :=
  ∀ taken, ∃ w r, s = w ++ r ∧ numberLength taken s = taken + w.length ∧ Composed ids r

theorem endsNumber_of_head (h : Composed ids s) (hs : s.head?.any isInNumber = false) :
    EndsNumber ids s :=
  fun taken => ⟨[], s, rfl, numberLength_stop hs taken, h⟩

theorem endsNumber_append {w : Bytes} (hw : NumberBody w) (hs : EndsNumber ids s)
    (hsign : ∀ c r, s = c :: r → isSign c = true → EndsNumber ids r) :
    EndsNumber ids (w ++ s) := by
  intro taken
  rw [hw.numberLength_append]
  split
  · next hexp =>
    rw [Bool.and_eq_true] at hexp
    cases s with
    | nil => cases hexp.2
    | cons c s =>
      obtain ⟨w', r, rfl, hlen, hr⟩ := hsign c s rfl hexp.2 (taken + w.length + 1)
      refine ⟨w ++ c :: w', r, by simp, ?_, hr⟩
      rw [List.tail_cons, hlen, List.length_append, List.length_cons]
      omega
  · obtain ⟨w', r, rfl, hlen, hr⟩ := hs (taken + w.length)
    refine ⟨w ++ w', r, by simp, ?_, hr⟩
    rw [hlen, List.length_append]
    omega

/-- **A number takes in whole parts of the text.** The sign of an exponent is one of them. -/
theorem endsNumber (h : Composed ids s) :
    EndsNumber ids s ∧ ∀ c r, s = c :: r → isSign c = true → EndsNumber ids r := by
  induction h with
  | nil => exact ⟨endsNumber_of_head .nil rfl, nofun⟩
  | @space b s hb hs ih =>
    have hclass : ∀ c : UInt8, isSpace c = true → isInNumber c = false ∧ isSign c = false :=
      forall_byte (by decide +kernel)
    refine ⟨endsNumber_of_head (.space hb hs) (hclass b hb).1, ?_⟩
    rintro _ _ ⟨⟩ hsign
    rw [(hclass b hb).2] at hsign
    cases hsign
  | @mark b s hb hs ih =>
    refine ⟨?_, fun c r hcr _ => (List.cons.inj hcr).2 ▸ ih.1⟩
    by_cases hp : b = ch '.'
    · subst hp
      exact endsNumber_append (w := [ch '.']) (.cons (by decide) .nil) ih.1 ih.2
    · refine endsNumber_of_head (.mark hb hs) ?_
      rw [List.head?_cons, Option.any_some, isInNumber, (class_of_isMark b hb).2.1,
        beq_false_of_ne hp]
      rfl
  | @token kind b w s hspell hspace hpunct hafter hids hs ih =>
    have hcomposed : Composed ids (b :: (w ++ s)) := .token hspell hspace hpunct hafter hids hs
    refine ⟨?_, fun c r hcr hsign => ?_⟩
    · cases hspell with
      | whitespace _ _ => exact absurd rfl hspace
      | punctuator _ => exact absurd rfl hpunct
      | identifier hw =>
        refine endsNumber_append (w := b :: w) (numberBody_of_isIdent ?_) ih.1 ih.2
        rw [isWord, Bool.and_eq_true, List.all_eq_true] at hw
        exact List.forall_mem_cons.2 ⟨isIdent_of_isIdentStart hw.1, hw.2⟩
      | number _ hbody => exact endsNumber_append (w := b :: w) hbody ih.1 ih.2
      | string _ => exact endsNumber_of_head hcomposed rfl
      | charConst _ => exact endsNumber_of_head hcomposed rfl
    · obtain ⟨rfl, -⟩ := List.cons.inj hcr
      obtain ⟨hb, hp⟩ := isMark_of_isSign b hsign
      exact absurd (hspell.punctuator_of_isMark hb hp) hpunct

/-- `Composed.exists_lexeme` for numbers. -/
theorem exists_lexeme_number {b : UInt8} (h : Composed ids (b :: s))
    (hstart : startsNumber (b :: s) = true) : ∃ w r, s = w ++ r ∧
      lexeme b (b :: s) = .ok (.number, w.length + 1) ∧ Composed ids r := by
  obtain ⟨w, r, hs, hlen, hr⟩ := h.endsNumber.1 0
  have hpos := lt_numberLength (r := b :: s) (class_of_startsNumber hstart).2.2 0
  rw [hlen, Nat.zero_add] at hpos
  cases w with
  | nil => cases hpos
  | cons c w =>
    obtain ⟨rfl, rfl⟩ := List.cons.inj hs
    refine ⟨w, r, rfl, ?_, hr⟩
    rw [lexeme_startsNumber hstart, hlen, Nat.zero_add]
    rfl

/-- `Composed.exists_lexeme` for punctuators. -/
theorem exists_lexeme_mark {b : UInt8} (hs : Composed ids s) (hb : isMark b = true)
    (hstart : startsNumber (b :: s) = false) : ∃ w r, s = w ++ r ∧
      lexeme b (b :: s) = .ok (.punctuator, w.length + 1) ∧ Composed ids r := by
  have hmem : [b] ∈ punctuators := List.contains_iff_mem.1 hb
  obtain ⟨n, hn, -⟩ := exists_punctuatorLength? hmem s
  have hl := lexeme_mark hb hstart hn
  obtain ⟨u, r, hur, rfl, hu⟩ := exists_of_punctuatorLength? hn
  cases u with
  | nil => exact absurd rfl (punctuator_ne_nil _ hu)
  | cons c w =>
    obtain ⟨rfl, rfl⟩ := List.cons.inj hur
    refine ⟨w, r, rfl, hl, hs.of_marks fun c hc => ?_⟩
    refine ⟨isMark_of_mem _ hu c (List.mem_cons_of_mem b hc), fun hp => ?_⟩
    -- a point would be the whole punctuator
    have hpoint := eq_point_of_mem _ hu (List.mem_cons_of_mem b (hp ▸ hc))
    rw [(List.cons.inj hpoint).2] at hc
    cases hc

/-- **Cutting off a token leaves a composed text,** and an identifier was one before. -/
theorem exists_lexeme {b : UInt8} (h : Composed ids (b :: s)) : ∃ kind w r, s = w ++ r ∧
    lexeme b (b :: s) = .ok (kind, w.length + 1) ∧ Composed ids r ∧
      (kind = .identifier → ids (b :: w)) := by
  by_cases hstart : startsNumber (b :: s) = true
  · obtain ⟨w, r, hs, hl, hr⟩ := h.exists_lexeme_number hstart
    exact ⟨.number, w, r, hs, hl, hr, fun hk => by cases hk⟩
  cases h with
  | space hb hs =>
    refine ⟨.whitespace, s.takeWhile isSpace, s.dropWhile isSpace,
      List.takeWhile_append_dropWhile.symm, ?_, hs.dropWhile_isSpace, fun hk => by cases hk⟩
    rw [lexeme, if_pos hb, List.takeWhile_cons_of_pos hb]
    rfl
  | mark hb hs =>
    obtain ⟨w, r, hw, hl, hr⟩ := exists_lexeme_mark hs hb (Bool.eq_false_iff.2 hstart)
    exact ⟨.punctuator, w, r, hw, hl, hr, fun hk => by cases hk⟩
  | @token kind _ w s hspell hspace hpunct hafter hids hs =>
    refine ⟨kind, w, s, rfl, ?_, hs, hids⟩
    have hruns : runsOn kind (b :: w) s = false := by
      cases hspell with
      | number hw _ => exact absurd (startsNumber_append hw s) hstart
      | punctuator _ => exact absurd rfl hpunct
      | _ => rfl
    exact lexeme_front hspell hspace hafter hruns

/-- **A composed text can be cut into tokens,** and an identifier was one before. -/
theorem exists_cuts (h : Composed ids s) : ∃ pieces, Cuts pieces ∧ piecesText pieces = s ∧
    ∀ w, (.identifier, w) ∈ pieces → ids w := by
  induction hn : s.length using Nat.strongRecOn generalizing s with
  | ind n ih =>
    cases s with
    | nil => exact ⟨[], trivial, rfl, nofun⟩
    | cons b s =>
      obtain ⟨kind, w, r, rfl, hl, hr, hids⟩ := h.exists_lexeme
      have hlt : r.length < n := by
        rw [← hn, List.length_cons, List.length_append]
        omega
      obtain ⟨pieces, hcuts, rfl, hpieces⟩ := ih r.length hlt hr rfl
      refine ⟨(kind, b :: w) :: pieces, ⟨⟨b, rfl, hl⟩, hcuts⟩, rfl, fun v hv => ?_⟩
      rcases List.mem_cons.1 hv with hv | hv
      · obtain ⟨rfl, rfl⟩ := Prod.mk.inj hv
        exact hids rfl
      · exact hpieces v hv

end Composed

/-! ### Idempotence -/

/-- **The text of an expansion is its own expansion:** it can be cut into tokens again, and none of
them is the name of a macro. -/
theorem expandLine_idempotent {t : Table} {place : Position} {line text : Bytes}
    (h : expandLine t place line = .ok text) : expandLine t place text = .ok text ∧
      ∃ tokens, ofLine text = .ok tokens ∧
        ∀ token ∈ tokens, token.kind = .identifier → t.lookup? token.text = none := by
  obtain ⟨tokens, out, hline, hout, rfl⟩ := expandLine_ok.1 h
  obtain ⟨hcut, hnone⟩ := wellCut_of_expandTokens hline hout
  have hids : ∀ token ∈ out, token.kind = .identifier → t.lookup? token.text = none := by
    intro token hmem hk
    have hr := hnone token hmem
    rwa [Token.replacement?, if_pos hk] at hr
  have hcomposed : Composed (fun w => t.lookup? w = none) (join out) := .of_wellCut hcut hids
  obtain ⟨pieces, hcuts, htext, hpieces⟩ := hcomposed.exists_cuts
  rw [← htext]
  refine ⟨expandLine_of_cuts hcuts hpieces, ?_⟩
  obtain ⟨again, hagain, rfl⟩ := ofLine_of_cuts hcuts
  refine ⟨again, hagain, fun token hmem hk => hpieces token.text ?_⟩
  rw [← hk]
  exact List.mem_map_of_mem hmem

/-- A table with the macro `MASK` for a hexadecimal number that ends in an exponent mark. -/
def maskTable : Table :=
  Table.define ⟨⟨2024, 3, 5, 14, 7, 9⟩, []⟩ (ascii "MASK") (ascii "0xe")

theorem expandLine_idempotent_mask :
    expandLine maskTable ⟨[], 1⟩ (ascii "MASK+X") = .ok (ascii "0xe+X") ∧
      expandLine maskTable ⟨[], 1⟩ (ascii "0xe+X") = .ok (ascii "0xe+X") := by
  have h : expandLine maskTable ⟨[], 1⟩ (ascii "MASK+X") = .ok (ascii "0xe+X") := rfl
  exact ⟨h, (expandLine_idempotent h).1⟩

/-! ### Cutting again -/

/-- The first token goes on in the second. -/
def Token.runsInto (a b : Token) : Bool := runsOn a.kind a.text b.text

/-- The pieces other than white space. -/
def withoutSpaces (pieces : List Piece) : List Piece := pieces.filter fun p => p.1 != .whitespace

theorem withoutSpaces_cons_space (w : Bytes) (pieces : List Piece) :
    withoutSpaces ((.whitespace, w) :: pieces) = withoutSpaces pieces := rfl

theorem withoutSpaces_cons {kind : TokenKind} (h : kind ≠ .whitespace) (w : Bytes)
    (pieces : List Piece) :
    withoutSpaces ((kind, w) :: pieces) = (kind, w) :: withoutSpaces pieces :=
  List.filter_cons_of_pos (by simpa using h)

/-- Whether a token runs on into the text of others is seen from the first of them. -/
theorem runsOn_join {kind : TokenKind} {w : Bytes} {tokens : List Token}
    (h : ∀ token ∈ tokens, Spelling token.kind token.text) :
    runsOn kind w (join tokens) = false ↔
      ∀ token ∈ tokens.head?, runsOn kind w token.text = false := by
  have hhead := head_join h
  cases tokens with
  | nil => cases kind <;> simp [runsOn, join]
  | cons token tokens =>
    have hruns : runsOn kind w (join (token :: tokens)) = runsOn kind w token.text := by
      simp only [runsOn, hhead, List.head?_cons, Option.bind_some]
    simp [hruns]

/-- Cutting off a piece is what `lexeme` says. -/
theorem Cuts.exists_cons {pieces : List Piece} (h : Cuts pieces) {b : UInt8} {s : Bytes}
    (ht : piecesText pieces = b :: s) : ∃ kind w rest, pieces = (kind, b :: w) :: rest ∧
      Cuts rest ∧ s = w ++ piecesText rest ∧ lexeme b (b :: s) = .ok (kind, w.length + 1) := by
  match pieces, h with
  | [], _ => cases ht
  | (kind, w) :: rest, ⟨⟨c, hc, hl⟩, hrest⟩ =>
    cases w with
    | nil => cases hc
    | cons d w =>
      cases hc
      obtain ⟨rfl, rfl⟩ := List.cons.inj ht
      exact ⟨kind, w, rest, rfl, hrest, rfl, hl⟩

/-- White space in front of a text is cut off by itself. -/
theorem Cuts.exists_behind_spaces {pieces : List Piece} (h : Cuts pieces) {u s : Bytes}
    (ht : piecesText pieces = u ++ s) (hu : ∀ b ∈ u, isSpace b = true)
    (hs : s.head?.any isSpace = false) :
    ∃ rest, Cuts rest ∧ piecesText rest = s ∧ withoutSpaces pieces = withoutSpaces rest := by
  cases u with
  | nil => exact ⟨pieces, h, ht, rfl⟩
  | cons b u =>
    obtain ⟨kind, w, rest, rfl, hrest, hwr, hl⟩ := h.exists_cons (s := u ++ s) ht
    have hb := hu b List.mem_cons_self
    have htake : (b :: (u ++ s)).takeWhile isSpace = b :: u := by
      rw [← List.cons_append, List.takeWhile_append_of_pos hu, Scan.takeWhile_isSpace_of_head hs,
        List.append_nil]
    rw [lexeme, if_pos hb, htake] at hl
    obtain ⟨rfl, hlen⟩ := Prod.mk.inj (Except.ok.inj hl)
    obtain ⟨rfl, rfl⟩ := List.append_inj hwr (Nat.succ.inj hlen)
    exact ⟨rest, hrest, rfl, withoutSpaces_cons_space _ rest⟩

theorem isSpace_of_lexeme {b : UInt8} {s : Bytes} {n : Nat}
    (h : lexeme b (b :: s) = .ok (.whitespace, n)) : isSpace b = true := by
  obtain ⟨w, r, hs, -, hspell, -⟩ := lexeme_spelled h
  cases hspell with
  | whitespace hne hw =>
    cases w with
    | nil => exact absurd rfl hne
    | cons c w =>
      rw [(List.cons.inj hs).1]
      exact hw c List.mem_cons_self

theorem Cuts.eq_nil {pieces : List Piece} (h : Cuts pieces) (ht : piecesText pieces = []) :
    pieces = [] := by
  match pieces, h with
  | [], _ => rfl
  | (kind, []) :: rest, ⟨⟨_, hb, _⟩, _⟩ => cases hb
  | (kind, b :: w) :: rest, _ => cases ht

section Again
variable {kind : TokenKind} {b : UInt8} {w r : Bytes} {pieces : List Piece}

/-- A token that does not run on is found again. -/
theorem Cuts.exists_front (h : Cuts pieces) (ht : piecesText pieces = b :: w ++ r)
    (hspell : Spelling kind (b :: w)) (hk : kind ≠ .whitespace)
    (hafter : kind.isWordy = true → r.head?.any isIdent = false)
    (hruns : runsOn kind (b :: w) r = false) :
    ∃ rest, pieces = (kind, b :: w) :: rest ∧ Cuts rest ∧ piecesText rest = r := by
  obtain ⟨k, v, rest, rfl, hrest, hwr, hl⟩ := h.exists_cons (s := w ++ r) ht
  have hfront := lexeme_front hspell hk hafter hruns
  obtain ⟨rfl, hlen⟩ := Prod.mk.inj (Except.ok.inj (hl.symm.trans hfront))
  obtain ⟨rfl, rfl⟩ := List.append_inj hwr (Nat.succ.inj hlen).symm
  exact ⟨rest, rfl, hrest, rfl⟩

/-- A token that runs on is not found again: a longer one is. -/
theorem Cuts.front_ne (h : Cuts pieces) (ht : piecesText pieces = b :: w ++ r)
    (hspell : Spelling kind (b :: w)) (hk : kind ≠ .whitespace)
    (hruns : runsOn kind (b :: w) r = true) (others : List Piece) :
    withoutSpaces pieces ≠ (kind, b :: w) :: others := by
  obtain ⟨k, v, rest, rfl, hrest, hwr, hl⟩ := h.exists_cons (s := w ++ r) ht
  have hlonger := lexeme_runsOn hspell hruns hl
  have hblank := hspell.not_isSpace hk
  have hkind : k ≠ .whitespace := by
    rintro rfl
    rw [isSpace_of_lexeme hl] at hblank
    cases hblank
  rw [withoutSpaces_cons hkind]
  intro heq
  have hlen : v = w := (List.cons.inj (Prod.mk.inj (List.cons.inj heq).1).2).2
  rw [hlen] at hlonger
  exact absurd hlonger (Nat.lt_irrefl _)

end Again

/-- **Cut again, tokens are found as they are exactly if none runs on into the next.** -/
theorem withoutSpaces_eq_iff : ∀ {tokens : List Token} {pieces : List Piece} {u : Bytes},
    WellCut tokens → (∀ b ∈ u, isSpace b = true) → Cuts pieces →
    piecesText pieces = u ++ join tokens →
    (withoutSpaces pieces = withoutSpaces (tokens.map piece) ↔
      tokens.IsChain fun a b => a.runsInto b = false)
  | [], pieces, u, _, hu, hcuts, ht => by
    obtain ⟨rest, hrest, hnil, heq⟩ := hcuts.exists_behind_spaces ht hu rfl
    rw [heq, hrest.eq_nil hnil]
    exact iff_of_true rfl .nil
  | ⟨kind, w, column⟩ :: tokens, pieces, u, hw, hu, hcuts, ht => by
    have hspell := hw.spelled _ List.mem_cons_self
    have hjoin : join (⟨kind, w, column⟩ :: tokens) = w ++ join tokens := rfl
    rw [hjoin] at ht
    rw [List.map_cons, piece, List.isChain_cons]
    by_cases hk : kind = .whitespace
    -- white space is put to the white space in front, which is cut off as one piece
    · subst hk
      have hspaces : ∀ b ∈ u ++ w, isSpace b = true := by
        cases hspell with
        | whitespace _ h => exact List.forall_mem_append.2 ⟨hu, h⟩
      have ih := withoutSpaces_eq_iff hw.tail hspaces hcuts (by rw [ht, List.append_assoc])
      rw [withoutSpaces_cons_space, ih]
      exact ⟨fun h => ⟨fun _ _ => rfl, h⟩, And.right⟩
    cases w with
    | nil => exact absurd rfl hspell.ne_nil
    | cons b w =>
      obtain ⟨found, hfound, htext, heq⟩ := hcuts.exists_behind_spaces ht hu (hspell.not_isSpace hk)
      rw [heq, withoutSpaces_cons hk]
      have hruns : runsOn kind (b :: w) (join tokens) = false ↔
          ∀ token ∈ tokens.head?, runsOn kind (b :: w) token.text = false :=
        runsOn_join hw.tail.spelled
      cases hcase : runsOn kind (b :: w) (join tokens) with
      | true =>
        refine iff_of_false (hfound.front_ne htext hspell hk hcase _) fun hchain => ?_
        rw [hruns.2 hchain.1] at hcase
        cases hcase
      | false =>
        obtain ⟨rest, rfl, hrest, hrestText⟩ :=
          hfound.exists_front htext hspell hk hw.head_tail hcase
        have ih := withoutSpaces_eq_iff (u := []) hw.tail (by simp) hrest hrestText
        rw [withoutSpaces_cons hk, List.cons_inj_right, ih]
        exact ⟨fun h => ⟨hruns.1 hcase, h⟩, And.right⟩

/-- **Expanded text is cut again into the tokens put together,** apart from white space, exactly if
none of them runs on into the next. -/
theorem relex_expansion {t : Table} {place : Position} {line : Bytes} {tokens out : List Token}
    (hline : ofLine line = .ok tokens) (hout : expandTokens t place tokens = .ok out) :
    ∃ again, ofLine (join out) = .ok again ∧
      (withoutSpaces (again.map piece) = withoutSpaces (out.map piece) ↔
        out.IsChain fun a b => a.runsInto b = false) := by
  obtain ⟨hcut, -⟩ := wellCut_of_expandTokens hline hout
  have hcomposed : Composed (fun _ => True) (join out) := .of_wellCut hcut fun _ _ _ => trivial
  obtain ⟨pieces, hcuts, htext, -⟩ := hcomposed.exists_cuts
  obtain ⟨again, hagain, rfl⟩ := ofLine_of_cuts hcuts
  rw [htext] at hagain
  exact ⟨again, hagain, withoutSpaces_eq_iff (u := []) hcut (by simp) hcuts htext⟩

/-- The tokens of `MASK+X`. -/
def maskTokens : List Token :=
  [⟨.identifier, ascii "MASK", 1⟩, ⟨.punctuator, ascii "+", 5⟩, ⟨.identifier, ascii "X", 6⟩]

/-- Tokens can be lost: behind `0xe`, which stands for `MASK`, a sum is read as part of the
number. -/
theorem not_relex_expansion : ¬ ∀ (t : Table) (place : Position) (line : Bytes)
    (tokens out : List Token), ofLine line = .ok tokens → expandTokens t place tokens = .ok out →
    ∃ again, ofLine (join out) = .ok again ∧
      withoutSpaces (again.map piece) = withoutSpaces (out.map piece) := by
  intro h
  obtain ⟨again, hagain, heq⟩ := h maskTable ⟨[], 1⟩ (ascii "MASK+X") maskTokens
    [⟨.number, ascii "0xe", 1⟩, ⟨.punctuator, ascii "+", 5⟩, ⟨.identifier, ascii "X", 6⟩] rfl rfl
  have hnumber : ofLine (ascii "0xe+X") = .ok [⟨.number, ascii "0xe+X", 1⟩] := rfl
  cases hnumber.symm.trans hagain
  revert heq
  decide

theorem relex_expansion_mask : ∃ again, ofLine (ascii "0xe+X") = .ok again ∧
    (withoutSpaces (again.map piece) =
        [(.number, ascii "0xe"), (.punctuator, ascii "+"), (.identifier, ascii "X")] ↔
      [(⟨.number, ascii "0xe", 1⟩ : Token), ⟨.punctuator, ascii "+", 5⟩,
        ⟨.identifier, ascii "X", 6⟩].IsChain fun a b => a.runsInto b = false) :=
  @relex_expansion maskTable ⟨[], 1⟩ (ascii "MASK+X") maskTokens _ rfl rfl

end MiniC.Macro
