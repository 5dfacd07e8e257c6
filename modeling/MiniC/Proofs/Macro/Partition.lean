import MiniC.Proofs.Macro.Spelling

/-!
# A line is partitioned into its tokens

Cutting a line into tokens loses nothing and makes nothing up. `Cuttings r tokens stop` says that
`tokens` are cut off one after the other between two points of a line; what holds of one cut
(`Cut`) is carried along such a run.

* `ofLine_partition`: if a line is cut to its end, the tokens are a `Partition` of it: their texts
  make it up, none is empty, each stands in the column behind the ones before it, letters and
  digits that touch belong to one token, and each text alone is that one token. If not, the tokens
  before the fault make up a proper prefix of the line, and the fault stands in the column behind
  it.
-/

namespace MiniC.Macro

open Token

/-! ### Cut after cut -/

/-- The tokens are cut off one after the other, from the first point of the line to the second. -/
inductive Cuttings : Rest → List Token → Rest → Prop
  | none (r : Rest) : Cuttings r [] r
  | cut {r r' stop : Rest} {token : Token} {tokens : List Token} :
      next? r = some (token, r') → Cuttings r' tokens stop → Cuttings r (token :: tokens) stop

theorem cuttings_of_gathered {r stop : Rest} {tokens : List Token}
    (h : Gathered next? r tokens stop) : Cuttings r tokens stop := by
  induction h with
  | stop _ => exact .none _
  | take hnext _ ih => exact .cut hnext ih

/-- The tokens of a line are cut off until the end or a fault is reached. -/
theorem cuttings_scan (line : Bytes) : ∃ tokens stop, Cuttings (1, line) tokens stop ∧
    next? stop = none ∧ scan line = (tokens, fault? stop) := by
  obtain ⟨tokens, stop, hrun⟩ := exists_gathered length_next?_lt (1, line)
  exact ⟨tokens, stop, cuttings_of_gathered hrun, hrun.next?_stop, scan_of_gathered hrun⟩

section Cuttings
variable {r stop : Rest} {tokens : List Token}

/-- The texts of the tokens are what was passed, and the column moves on by as much. -/
theorem Cuttings.passed (h : Cuttings r tokens stop) :
    r.2 = join tokens ++ stop.2 ∧ stop.1 = r.1 + (join tokens).length := by
  induction h with
  | none r => exact ⟨rfl, rfl⟩
  | @cut r r' stop token tokens hnext _ ih =>
    have hcut := cut_of_next? hnext
    have hjoin : join (token :: tokens) = token.text ++ join tokens := rfl
    refine ⟨by rw [hcut.text, ih.1, hjoin, List.append_assoc], ?_⟩
    rw [ih.2, hcut.next, hjoin, List.length_append]
    omega

theorem Cuttings.spelled (h : Cuttings r tokens stop) :
    ∀ token ∈ tokens, Spelling token.kind token.text := by
  induction h with
  | none r => simp
  | cut hnext _ ih => exact List.forall_mem_cons.2 ⟨(cut_of_next? hnext).spelling, ih⟩

/-- A run can be parted in front of each of its tokens. -/
theorem Cuttings.append {front back : List Token} (h : Cuttings r (front ++ back) stop) :
    ∃ mid, Cuttings r front mid ∧ Cuttings mid back stop := by
  induction front generalizing r with
  | nil => exact ⟨r, .none r, h⟩
  | cons token front ih =>
    cases h with
    | cut hnext hrest =>
      obtain ⟨mid, hfront, hback⟩ := ih hrest
      exact ⟨mid, .cut hnext hfront, hback⟩

/-- Each token stands in the column behind the ones before it. -/
theorem Cuttings.column {front back : List Token} {token : Token}
    (h : Cuttings r (front ++ token :: back) stop) :
    token.column = r.1 + (join front).length := by
  obtain ⟨mid, hfront, hback⟩ := h.append
  cases hback with
  | cut hnext _ => rw [(cut_of_next? hnext).column, hfront.passed.2]

end Cuttings

/-! ### Neighbours -/

theorem QuotedBody.getLast? {quote : UInt8} {w : Bytes} (h : QuotedBody quote w) :
    w.getLast? = some quote := by
  induction h with
  | close => rfl
  | escape h ih => rw [List.getLast?_cons_cons, List.getLast?_cons, ih]; rfl
  | cons _ _ _ ih => rw [List.getLast?_cons, ih]; rfl

/-- A token that ends with a letter or a digit is a word or a number. -/
theorem Spelling.isWordy_of_getLast? {kind : TokenKind} {w : Bytes} (h : Spelling kind w)
    (hlast : w.getLast?.any isIdent = true) : kind.isWordy = true := by
  obtain ⟨b, hb, hident⟩ := (Option.any_eq_true _ _).1 hlast
  have hmem := List.mem_of_getLast? hb
  cases h with
  | whitespace _ hw =>
    have hspace := not_isSpace_of_isIdent hident
    rw [hw b hmem] at hspace
    cases hspace
  | identifier _ => rfl
  | number _ _ => rfl
  | string hw =>
    rw [List.getLast?_cons, hw.getLast?] at hb
    cases hb
    cases hident
  | charConst hw =>
    rw [List.getLast?_cons, hw.getLast?] at hb
    cases hb
    cases hident
  | punctuator hw =>
    rw [(class_of_mem w hw b hmem).2.1] at hident
    cases hident

/-- **Where two tokens meet, letters or digits do not stand on both sides.** -/
theorem Cuttings.apart {r stop : Rest} {front back : List Token} {a b : Token}
    (h : Cuttings r (front ++ a :: b :: back) stop) (ha : a.text.getLast?.any isIdent = true) :
    b.text.head?.any isIdent = false := by
  obtain ⟨mid, -, hback⟩ := h.append
  cases hback with
  | cut hnext hrest =>
    have hcut := cut_of_next? hnext
    have hhead := hcut.apart (hcut.spelling.isWordy_of_getLast? ha)
    cases hrest with
    | cut hnext' _ =>
      have hcut' := cut_of_next? hnext'
      rw [hcut'.text, List.head?_append_of_ne_nil _ hcut'.spelling.ne_nil] at hhead
      exact hhead

/-! ### A token alone -/

theorem lexeme_spaces {b : UInt8} {w : Bytes} (h : ∀ c ∈ b :: w, isSpace c = true) :
    lexeme b (b :: w) = .ok (.whitespace, w.length + 1) := by
  have hall : (b :: w).takeWhile isSpace = b :: w := List.takeWhile_eq_self_iff.2 h
  rw [lexeme, if_pos (h b List.mem_cons_self), hall]
  rfl

theorem runsOn_nil (kind : TokenKind) (w : Bytes) : runsOn kind w [] = false := by
  cases kind <;> simp [runsOn]

/-- The text of a token is cut as that token and no other. -/
theorem Spelling.lexeme_alone {kind : TokenKind} {b : UInt8} {w : Bytes}
    (h : Spelling kind (b :: w)) : lexeme b (b :: w) = .ok (kind, w.length + 1) := by
  by_cases hk : kind = .whitespace
  · subst hk
    cases h with
    | whitespace _ hw => exact lexeme_spaces hw
  · have hfront := lexeme_front (r := []) h hk (fun _ => rfl) (runsOn_nil kind (b :: w))
    rwa [List.append_nil] at hfront

theorem Spelling.ofLine_alone {kind : TokenKind} {w : Bytes} (h : Spelling kind w) :
    ofLine w = .ok [⟨kind, w, 1⟩] := by
  cases w with
  | nil => exact absurd rfl h.ne_nil
  | cons b w =>
    have hnext : next? (1, b :: w) = some (⟨kind, b :: w, 1⟩, (1 + (w.length + 1), [])) := by
      simp [next?, h.lexeme_alone]
    have hgather : gather next? (b :: w) [] (1, b :: w) =
        ([⟨kind, b :: w, 1⟩], (1 + (w.length + 1), [])) := by
      rw [gather, hnext]
      cases w <;> rfl
    rw [ofLine, scan, hgather]
    rfl

/-! ### Lines -/

/-- The tokens part the line. -/
structure Partition (line : Bytes) (tokens : List Token) : Prop where
  /-- Their texts make up the line. -/
  text : join tokens = line
  /-- None is empty. -/
  nonempty : ∀ token ∈ tokens, token.text ≠ []
  /-- Each stands in the column behind the ones before it. -/
  column : ∀ front token back, tokens = front ++ token :: back →
    token.column = 1 + (join front).length
  /-- Letters and digits that touch belong to one token. -/
  apart : ∀ front a b back, tokens = front ++ a :: b :: back →
    ¬ (a.text.getLast?.any isIdent = true ∧ b.text.head?.any isIdent = true)
  /-- Each text alone is that one token. -/
  alone : ∀ token ∈ tokens, ofLine token.text = .ok [⟨token.kind, token.text, 1⟩]

theorem Cuttings.partition {line : Bytes} {tokens : List Token} {stop : Rest}
    (h : Cuttings (1, line) tokens stop) (hstop : stop.2 = []) : Partition line tokens where
  text := by
    have hpassed := h.passed.1
    rw [hstop, List.append_nil] at hpassed
    exact hpassed.symm
  nonempty token ht := (h.spelled token ht).ne_nil
  column front token back heq := by
    subst heq
    exact h.column
  apart front a b back heq hboth := by
    subst heq
    rw [h.apart hboth.1] at hboth
    cases hboth.2
  alone token ht := (h.spelled token ht).ofLine_alone

/-- **A line is partitioned into its tokens.** If all of it is cut, the tokens part it; if not, those
before the fault make up a proper prefix of it, and the fault stands in the column behind that
prefix. -/
theorem ofLine_partition (line : Bytes) :
    (∀ tokens, ofLine line = .ok tokens → Partition line tokens) ∧
    (∀ column fault, ofLine line = .error (column, fault) →
      ∃ tokens rest, scan line = (tokens, some (column, fault)) ∧ line = join tokens ++ rest ∧
        rest ≠ [] ∧ column = (join tokens).length + 1) := by
  obtain ⟨tokens, stop, hcut, hstop, hscan⟩ := cuttings_scan line
  rcases next?_eq_none hstop with ⟨hend, hfault⟩ | ⟨hrest, f, hfault⟩
  · have hline : ofLine line = .ok tokens := by rw [ofLine, hscan, hfault]
    refine ⟨fun found hfound => ?_, fun column fault herror => ?_⟩
    · cases hline.symm.trans hfound
      exact hcut.partition hend
    · cases hline.symm.trans herror
  · have hline : ofLine line = .error (stop.1, f) := by rw [ofLine, hscan, hfault]
    refine ⟨fun found hfound => ?_, fun column fault herror => ?_⟩
    · cases hline.symm.trans hfound
    · cases hline.symm.trans herror
      refine ⟨tokens, stop.2, by rw [hscan, hfault], hcut.passed.1, hrest, ?_⟩
      rw [hcut.passed.2, Nat.add_comm]

/-- A number takes the sign of its exponent with it, and an open literal stops the cutting. -/
theorem ofLine_partition_exponent :
    Partition (ascii "x+1e+5") [⟨.identifier, ascii "x", 1⟩, ⟨.punctuator, ascii "+", 2⟩,
      ⟨.number, ascii "1e+5", 3⟩] ∧
    ∃ tokens rest, scan (ascii "x 'y") = (tokens, some (3, .unterminated .charConst)) ∧
      ascii "x 'y" = join tokens ++ rest ∧ rest ≠ [] ∧ 3 = (join tokens).length + 1 :=
  ⟨(ofLine_partition (ascii "x+1e+5")).1 _ (by decide +kernel),
    (ofLine_partition (ascii "x 'y")).2 3 (.unterminated .charConst) (by decide +kernel)⟩

end MiniC.Macro
