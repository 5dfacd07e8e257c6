import MiniC.Macro.Preprocessing
import MiniC.Proofs.Macro.Spelling
import MiniC.Proofs.Source.AppendedLine

/-!
# Sources that preprocessing leaves alone

`preprocess_join`: a source of lines, each of which is its own output, is its own output as a whole,
if its bytes are `isInert`, that is, take part in no line end, splice or trigraph. A line is its own
output if it can be cut into pieces that are the tokens found there (`Cuts`) and none of its
identifiers names a macro: `processLine_of_cuts`.
-/

namespace MiniC

theorem not_blank_of_isIdentStart : ∀ b : UInt8, isIdentStart b = true →
    Macro.Directive.isBlank b = false ∧ (b == ch ' ' || b == 0x09) = false ∧ b ≠ ch '#' :=
  forall_byte (by decide +kernel)

namespace Macro

/-! ### Cutting off one piece -/

section Pieces
variable {pieces : List Piece}

/-- A token that does not run on into the pieces behind it is a piece. -/
theorem cuts_cons {kind : TokenKind} {w : Bytes} (hw : Spelling kind w) (hk : kind ≠ .whitespace)
    (hr : kind.isWordy = true → (piecesText pieces).head?.any isIdent = false)
    (hruns : runsOn kind w (piecesText pieces) = false) (h : Cuts pieces) :
    Cuts ((kind, w) :: pieces) := by
  cases w with
  | nil => exact absurd rfl hw.ne_nil
  | cons b w => exact ⟨⟨b, rfl, lexeme_front hw hk hr hruns⟩, h⟩

theorem cuts_word {w : Bytes} (hw : isWord w = true)
    (hr : (piecesText pieces).head?.any isIdent = false) (h : Cuts pieces) :
    Cuts ((.identifier, w) :: pieces) :=
  cuts_cons (.identifier hw) (by decide) (fun _ => hr) rfl h

theorem cuts_space (hr : (piecesText pieces).head?.any isSpace = false) (h : Cuts pieces) :
    Cuts ((.whitespace, [ch ' ']) :: pieces) := by
  refine ⟨⟨ch ' ', rfl, ?_⟩, h⟩
  rw [Token.lexeme, if_pos (by decide), List.singleton_append,
    List.takeWhile_cons_of_pos (by decide), Scan.takeWhile_isSpace_of_head hr]

theorem cuts_mark {b : UInt8} (hb : b = ch '*' ∨ b = ch '=' ∨ b = ch ';')
    (hr : (piecesText pieces).head? ≠ some (ch '=')) (h : Cuts pieces) :
    Cuts ((.punctuator, [b]) :: pieces) := by
  -- only `=` makes one of these marks longer
  have hmem : [b] ∈ Token.punctuators ∧ b ≠ ch '.' ∧
      ∀ w ∈ Token.punctuators, w.head? = some b → w = [b] ∨ w = [b, ch '='] := by
    obtain rfl | rfl | rfl := hb <;> decide
  obtain ⟨hmark, hpoint, hlong⟩ := hmem
  refine cuts_cons (.punctuator hmark) (by decide) (fun hk => by cases hk) ?_ h
  have hnot : ([b] == [ch '.']) = false := beq_false_of_ne fun h => hpoint (List.cons.inj h).1
  rw [runsOn, hnot, Bool.false_and, Bool.false_or]
  cases hs : (piecesText pieces).head? with
  | none => rfl
  | some c =>
    rw [Option.any_some, Bool.eq_false_iff, Ne, List.contains_iff_mem]
    intro hc
    rcases hlong _ hc rfl with heq | heq
    · cases heq
    · cases heq
      exact hr hs

theorem cuts_number {w : Bytes} (hd : w.head?.any isDigit = true) (hw : ∀ b ∈ w, isIdent b = true)
    (hr : (piecesText pieces).head?.any Token.isInNumber = false)
    (hsign : (piecesText pieces).head?.any Token.isSign = false) (h : Cuts pieces) :
    Cuts ((.number, w) :: pieces) := by
  have hstart : Token.startsNumber w = true := by
    cases w with
    | nil => cases hd
    | cons b w =>
      rw [List.head?_cons, Option.any_some] at hd
      rw [Token.startsNumber, hd, Bool.true_or]
  refine cuts_cons (.number hstart (numberBody_of_isIdent hw)) (by decide)
    (fun _ => not_head_any_mono hr fun _ => isInNumber_of_isIdent) ?_ h
  have hpoint : ((piecesText pieces).head? == some (ch '.')) = false := by
    cases hs : (piecesText pieces).head? with
    | none => rfl
    | some c =>
      rw [hs, Option.any_some, Token.isInNumber, Bool.or_eq_false_iff] at hr
      simpa using hr.2
  rw [runsOn, hpoint, hsign, Bool.and_false, Bool.or_false]

end Pieces

/-! ### Expansion -/

theorem mapM_singleton {expand : Token → Except Error (List Token)} : ∀ {tokens : List Token},
    (∀ t ∈ tokens, expand t = .ok [t]) → tokens.mapM expand = .ok (tokens.map fun t => [t])
  | [], _ => rfl
  | t :: tokens, h => by
    rw [List.mapM_cons, h t List.mem_cons_self,
      mapM_singleton fun u hu => h u (List.mem_cons_of_mem t hu)]
    rfl

/-- **A line without macros is its own expansion.** -/
theorem expandLine_of_cuts {t : Table} {place : Position} {pieces : List Piece} (h : Cuts pieces)
    (hm : ∀ w, (.identifier, w) ∈ pieces → t.lookup? w = none) :
    expandLine t place (piecesText pieces) = .ok (piecesText pieces) := by
  obtain ⟨tokens, hline, hpieces⟩ := ofLine_of_cuts h
  have hself : ∀ u ∈ tokens, expandToken t place maxDepth [] u = .ok [u] := by
    intro u hu
    rw [expandToken.eq_def]
    dsimp only
    by_cases hk : u.kind = .identifier
    · have hmem : (TokenKind.identifier, u.text) ∈ pieces := by
        rw [← hpieces, ← hk]
        exact List.mem_map_of_mem hu
      rw [if_pos hk, hm u.text hmem]
    · rw [if_neg hk]
  have hexpand : expandTokens t place tokens = .ok tokens := by
    rw [expandTokens, expandAll, mapM_singleton hself]
    exact congrArg Except.ok (List.flatMap_singleton' tokens)
  have hjoin : Token.join tokens = piecesText pieces := by
    rw [← hpieces, piecesText_map_piece]
  have htokens : tokensAt place (piecesText pieces) = .ok tokens := by rw [tokensAt, hline]
  rw [expandLine, htokens]
  simp only [bind, Except.bind, hexpand, hjoin]
  rfl

/-- **A line without macros that starts with a word is its own output.** -/
theorem processLine_of_cuts {t : Table} {place : Position} {pieces : List Piece} (h : Cuts pieces)
    (hm : ∀ w, (.identifier, w) ∈ pieces → t.lookup? w = none)
    (hw : (piecesText pieces).head?.any isIdentStart = true) :
    processLine t place (piecesText pieces) = .ok (piecesText pieces, t) := by
  have hdirective : Directive.ofLine? (piecesText pieces) = none ∧
      Directive.isHashLine (piecesText pieces) = false := by
    cases hs : piecesText pieces with
    | nil => rw [hs] at hw; cases hw
    | cons b s =>
      rw [hs, List.head?_cons, Option.any_some] at hw
      obtain ⟨h₁, h₂, h₃⟩ := not_blank_of_isIdentStart b hw
      constructor
      · simp [Directive.ofLine?, Directive.afterHash?, h₁, h₃]
      · simp [Directive.isHashLine, h₂, h₃]
  rw [processLine, hdirective.1]
  dsimp only
  rw [hdirective.2, if_neg (by simp), expandLine_of_cuts h hm]
  rfl

/-! ### Sources -/

theorem processFrom_verbatim {t : Table} {file : Bytes} : ∀ {lines : List Bytes} {number : Nat}
    {done : List Bytes}, (∀ l ∈ lines, ∀ place, processLine t place l = .ok (l, t)) →
    processFrom file number done t lines = (.ok (done.reverse ++ lines), t)
  | [], _, done, _ => by rw [processFrom, List.append_nil]
  | l :: lines, number, done, h => by
    rw [processFrom, h l List.mem_cons_self]
    dsimp only
    rw [processFrom_verbatim fun m hm => h m (List.mem_cons_of_mem l hm)]
    simp

/-- **A source of inert lines, each its own output, is its own output.** -/
theorem preprocess_join {lines : List Bytes} {file : Bytes} {o : Options} (hne : lines ≠ [])
    (hi : ∀ l ∈ lines, ∀ b ∈ l, isInert b = true)
    (h : ∀ l ∈ lines, ∀ place, processLine o.table place l = .ok (l, o.table)) :
    preprocess (Bytes.join [0x0a] lines) file o = .ok (Bytes.join [0x0a] lines) := by
  rw [preprocess, LogicalLine.ofSource_join hne hi, processLines, processFrom_verbatim h]
  rfl

end Macro

end MiniC
