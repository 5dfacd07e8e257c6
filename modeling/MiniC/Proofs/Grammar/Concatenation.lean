import MiniC.Proofs.Grammar.Lockstep.Definition

/-!
# Programs behind each other

The types that a program declares are all it leaves to the text behind it. If a second program is
read under the vocabulary that the first one leaves, then both can be read as one text, with a
newline between them: `parseProgram_append`.

The reading of the whole text is in step with that of the first program up to its end
(`program_front`). There the parser stands at the first word of the second program, and from there
on it is in step with the reading of the second program, with nothing behind it. The first step is
for any two texts that agree up to a seam.
-/

namespace MiniC.Grammar

open MiniC.Parser MiniC.Scan MiniC.Scan.Seam ParserState

/-! ### The loop over the definitions -/

theorem programStep_atEnd {s : ParserState} (h : s.scanner.cursor.rest = []) (found : Program) :
    (programStep found).run s = .ok (.inr found.reverse) s := by
  have hend : atEnd.run s = .ok true s := by
    change EStateM.Result.ok s.scanner.cursor.atEnd s = _
    rw [Cursor.atEnd, h]
    rfl
  rw [programStep, run_bind_of_ok hend]
  rfl

theorem programStep_run {s : ParserState} (h : s.scanner.cursor.rest ≠ []) (found : Program) :
    (programStep found).run s =
      (definition >>= fun d => pure (.inl (d :: found)) : Parser (Program ⊕ Program)).run s := by
  have hend : atEnd.run s = .ok false s := by
    change EStateM.Result.ok s.scanner.cursor.atEnd s = _
    rw [Cursor.atEnd, List.isEmpty_eq_false_iff.mpr h]
  rw [programStep, run_bind_of_ok hend]
  rfl

theorem iterateWithin_atEnd {s : ParserState} (h : s.scanner.cursor.rest = []) (b : UInt8)
    (n : Bytes) (found : Program) :
    (iterateWithin programStep (b :: n) found).run s = .ok found.reverse s := by
  rw [iterateWithin_cons, run_bind_of_ok (programStep_atEnd h found)]
  rfl

theorem iterateWithin_definition {s s₁ : ParserState} {d : Definition}
    (h : s.scanner.cursor.rest ≠ []) (hd : definition.run s = .ok d s₁) (b : UInt8) (n : Bytes)
    (found : Program) :
    (iterateWithin programStep (b :: n) found).run s =
      (iterateWithin programStep n (d :: found)).run s₁ := by
  have hstep : (programStep found).run s = .ok (.inl (d :: found)) s₁ := by
    rw [programStep_run h, run_bind_of_ok hd]
    rfl
  rw [iterateWithin_cons, run_bind_of_ok hstep]

/-- A run of the loop is at the end of the text, or reads a definition and goes on. -/
theorem iterateWithin_ok {s s' : ParserState} {n : Bytes} {found P : Program}
    (h : (iterateWithin programStep n found).run s = .ok P s') :
    ∃ b m, n = b :: m ∧ (s.scanner.cursor.rest = [] ∧ P = found.reverse ∧ s' = s ∨
      s.scanner.cursor.rest ≠ [] ∧ ∃ d s₁, definition.run s = .ok d s₁ ∧
        (iterateWithin programStep m (d :: found)).run s₁ = .ok P s') := by
  cases n with
  | nil => cases h
  | cons b m =>
    refine ⟨b, m, rfl, ?_⟩
    by_cases hr : s.scanner.cursor.rest = []
    · rw [iterateWithin_atEnd hr] at h
      cases h
      exact .inl ⟨hr, rfl, rfl⟩
    · rw [iterateWithin_cons] at h
      obtain ⟨x, s₁, hstep, hrest⟩ := run_bind_ok h
      rw [programStep_run hr] at hstep
      obtain ⟨d, s₂, hd, hpure⟩ := run_bind_ok hstep
      cases hpure
      exact .inr ⟨hr, d, s₁, hd, hrest⟩

theorem iterateWithin_back : ∀ (n : Bytes) {found P : Program} {s s' : ParserState},
    s.vocabulary.Grown → (iterateWithin programStep n found).run s = .ok P s' →
      s'.vocabulary.Grown ∧ (s'.Clean → s.Clean)
  | n, found, P, s, s', hs, h => by
    obtain ⟨b, m, rfl, ⟨-, -, rfl⟩ | ⟨-, d, s₁, hd, hrest⟩⟩ := iterateWithin_ok h
    · exact ⟨hs, id⟩
    · have hregular : (Boundary.endOfText.seam .anywhere).Regular s :=
        ⟨hs, trivial, List.nil_suffix⟩
      obtain ⟨hs₁, -, hlive⟩ := definition_finishes.back hregular hd
      obtain ⟨hg', hclean⟩ := iterateWithin_back m hs₁.grown hrest
      exact ⟨hg', fun h => (hlive (hclean h)).clean⟩

section Seam

variable {M : Placing} {S : Seam M} {s s' t : ParserState} {found P : Program}

/-- A parser that reads a definition is in front of the seam, if the rest is read as well. -/
theorem live_of_definition {d : Definition} {s₁ : ParserState} {m : Bytes} (hs : S.Regular s)
    (hd : definition.run s = .ok d s₁)
    (h : (iterateWithin programStep m found).run s₁ = .ok P s') (hclean : s'.Clean) :
    S.Live s ∧ s₁.Clean := by
  obtain ⟨hs₁, -, hlive⟩ := (definition_finishes (S := S)).back hs hd
  have hclean₁ := (iterateWithin_back m hs₁.grown h).2 hclean
  exact ⟨hlive hclean₁, hclean₁⟩

/-- **The definitions of a text are read in the same way in front of the seam**, and the loop goes
on at the first word behind them. -/
theorem program_front : ∀ (m n : Bytes) (found' : Program) {found P : Program}
    {s s' t : ParserState}, (iterateWithin programStep m found).run s = .ok P s' → s'.Clean →
    S.Aligned s t → m.length + S.next.length ≤ n.length →
      ∃ D D' k t', P = found.reverse ++ D ∧ M.LikeList Definition.relocate D D' ∧
        (iterateWithin programStep n found').run t =
          (iterateWithin programStep k (D'.reverse ++ found')).run t' ∧
        S.next.length < k.length ∧ S.Aligned s' t' ∧ s'.scanner.cursor.rest = []
  | m, n, found', found, P, s, s', t, h, hclean, ht, hn => by
    obtain ⟨b, m, rfl, ⟨hr, rfl, rfl⟩ | ⟨hr, d, s₁, hd, hrest⟩⟩ := iterateWithin_ok h
    · refine ⟨[], [], n, t, by simp, rfl, rfl, ?_, ht, hr⟩
      rw [List.length_cons] at hn
      omega
    · -- the definitions behind this one ended well, so it did
      obtain ⟨hlive, hs₁⟩ := live_of_definition ht.regular hd hrest hclean
      obtain ⟨d', t₁, hd', hdd', ht₁⟩ := definition_finishes.step hd hs₁ ht
      cases n with
      | nil =>
        simp only [List.length_cons, List.length_nil] at hn
        omega
      | cons c n =>
        have htr : t.scanner.cursor.rest ≠ [] := by
          obtain ⟨q, hq, -, hrest⟩ := (ht.near hlive).rest
          rw [hrest]
          exact List.append_ne_nil_of_left_ne_nil hq _
        simp only [List.length_cons] at hn
        obtain ⟨D, D', k, t', rfl, hD, hrun, hk, ht', hend⟩ :=
          program_front m n (d' :: found') hrest hclean ht₁ (by omega)
        refine ⟨d :: D, d' :: D', k, t', by simp, congrArg₂ List.cons hdd' hD, ?_, hk, ht', hend⟩
        rw [iterateWithin_definition htr hd', hrun]
        simp

/-- A program that is read leaves the loop of the second text room for what follows. -/
theorem length_rest_le {m : Bytes} (h : (iterateWithin programStep m found).run s = .ok P s')
    (hclean : s'.Clean) (ht : S.Aligned s t) :
    s.scanner.cursor.rest.length + S.next.length ≤ t.scanner.cursor.rest.length := by
  obtain ⟨b, m, rfl, ⟨hr, -, -⟩ | ⟨-, d, s₁, hd, hrest⟩⟩ := iterateWithin_ok h
  · rw [hr, (ht.atEnd hr).1, List.length_nil, Nat.zero_add]
  · obtain ⟨q, -, hc, hd'⟩ := (ht.near (live_of_definition ht.regular hd hrest hclean).1).rest
    have := S.length_le
    rw [hc, hd', List.length_append, List.length_append]
    omega

/-- A whole program is read in the same way in front of the seam. -/
theorem program_run_front (h : program.run s = .ok P s') (hclean : s'.Clean) (ht : S.Aligned s t) :
    ∃ D k t', M.LikeList Definition.relocate P D ∧
      program.run t = (iterateWithin programStep k D.reverse).run t' ∧
      S.next.length < k.length ∧ S.Aligned s' t' ∧ s'.scanner.cursor.rest = [] := by
  have hlength := length_rest_le h hclean ht
  obtain ⟨D, D', k, t', hP, hD, hrun, hk, ht', hend⟩ :=
    program_front _ (0 :: t.scanner.cursor.rest) [] h hclean ht (by
      simp only [List.length_cons]
      omega)
  rw [List.reverse_nil, List.nil_append] at hP
  rw [List.append_nil] at hrun
  exact ⟨D', k, t', hP ▸ hD, hrun, hk, ht', hend⟩

end Seam

/-! ### The first word of a program -/

theorem head_of_leads {w s : Bytes} (hw : isWord w = true) (h : leads w s = true) :
    s.head?.any isIdentStart = true := by
  by_contra hn
  rw [leads_of_isWord hw (by simpa using hn)] at h
  cases h

theorem typeStarts_true {s s' : ParserState} (hs : IdentifiersOnly s.vocabulary)
    (h : typeStarts.run s = .ok true s') :
    s.scanner.cursor.rest.head?.any isIdentStart = true := by
  obtain ⟨st, s₁, hget, h⟩ := run_bind_ok h
  cases hget
  obtain ⟨o, s₂, hpeek, h⟩ := run_bind_ok h
  cases o with
  | none => cases h
  | some w =>
    obtain ⟨hmem, hlead⟩ := firstPeeked_some hpeek
    exact head_of_leads (hs w hmem) hlead

theorem head_or_run {γ : Type} {w : Bytes} {yes no : Parser γ} {s s' : ParserState} {a : γ}
    (hw : isWord w = true) (h : (accept w >>= fun b => if b then yes else no).run s = .ok a s') :
    s.scanner.cursor.rest.head?.any isIdentStart = true ∨ no.run s = .ok a s' := by
  obtain ⟨b, s₁, hacc, h⟩ := run_bind_ok h
  cases b with
  | true => exact .inl (head_of_leads hw (accept_true hacc))
  | false =>
    cases accept_false hacc
    exact .inr h

/-- A definition starts with a word. -/
theorem definition_head {s s' : ParserState} {d : Definition} (hs : IdentifiersOnly s.vocabulary)
    (h : definition.run s = .ok d s') : s.scanner.cursor.rest.head?.any isIdentStart = true := by
  obtain ⟨p, s₀, hhere, h⟩ := run_bind_ok h
  cases hhere
  obtain ⟨start, s₀, hmark, h⟩ := run_bind_ok h
  cases hmark
  rcases head_or_run (w := ascii "struct") (by decide) h with hword | h
  · exact hword
  rcases head_or_run (w := ascii "enum") (by decide) h with hword | h
  · exact hword
  rcases head_or_run (w := ascii "typedef") (by decide) h with hword | h
  · exact hword
  obtain ⟨b, s₁, htype, h⟩ := run_bind_ok h
  cases b with
  | true => exact typeStarts_true hs htype
  | false => cases h

/-! ### Two programs -/

theorem parseProgram_ok {text file : Bytes} {v R : Vocabulary} {P : Program}
    (h : parseProgram text file v = (.ok P, R)) :
    ∃ s', program.run (start text file v) = .ok P s' ∧ s'.Clean ∧ s'.vocabulary = R := by
  rw [parseProgram, Prod.mk.injEq] at h
  obtain ⟨s', hrun, hclean⟩ := outcome_eq_ok.1 h.1
  refine ⟨s', hrun, hclean, ?_⟩
  rw [← h.2, hrun, vocabularyAfter]

theorem parseProgram_of_run {text file : Bytes} {v : Vocabulary} {P : Program} {s' : ParserState}
    (h : program.run (start text file v) = .ok P s') (hs' : s'.Clean) :
    parseProgram text file v = (.ok P, s'.vocabulary) := by
  rw [parseProgram, h, outcome, hs']
  rfl

theorem program_run (s : ParserState) :
    program.run s = (iterateWithin programStep (0 :: s.scanner.cursor.rest) []).run s := rfl

/-- A program that is read starts with a word, if with anything, and no comment is open there. -/
theorem program_start {b file : Bytes} {v : Vocabulary} {Q : Program} {s' : ParserState}
    (hv : v.Grown) (h : program.run (start b file v) = .ok Q s') (hs' : s'.Clean) :
    (start b file v).Clean ∧ ((start b file v).scanner.cursor.rest = [] ∨
      (start b file v).scanner.cursor.rest.head?.any isIdentStart = true) := by
  rw [program_run] at h
  refine ⟨(iterateWithin_back _ hv h).2 hs', ?_⟩
  obtain ⟨_, _, -, ⟨hr, -⟩ | ⟨-, d, s₁, hd, -⟩⟩ := iterateWithin_ok h
  · exact .inl hr
  · exact .inr (definition_head hv.identifiers hd)

/-- What follows `a` in the whole text: a new line, and then the program `b`. -/
theorem exists_boundary {b file : Bytes} {v : Vocabulary} {Q : Program} {s' : ParserState}
    (hv : v.Grown) (h : program.run (start b file v) = .ok Q s') (hs' : s'.Clean) :
    ∃ B : Boundary, B.tail = 0x0a :: b ∧ B.next = (start b file v).scanner.cursor.rest := by
  obtain ⟨hclean, hword⟩ := program_start hv h hs'
  exact ⟨.newLine b file hclean hword, rfl, rfl⟩

theorem text_start (text file : Bytes) (v : Vocabulary) :
    (start text file v).scanner.cursor.text = text := by
  rw [start, Scanner.ofText, Scanner.skipBlanks, Cursor.text_skip]
  rfl

/-- A text and the text with more behind it are in step from the start. -/
theorem aligned_start (B : Boundary) (M : Placing) {a fileA : Bytes} (file : Bytes)
    {v : Vocabulary} (hv : v.Grown) (ha : M.Allows a)
    (hfile : M.left ⟨fileA, 1⟩ = M.right ⟨file, 1⟩) (hs : (start a fileA v).Clean) :
    (B.seam M).Aligned (start a fileA v) (start (a ++ B.tail) file v) := by
  have hext : (Cursor.ofText a fileA).Extends B.tail (Cursor.ofText (a ++ B.tail) file) :=
    ⟨rfl, fun _ => rfl⟩
  obtain ⟨hmeets, hplaces, hlands⟩ := B.skip_carries (M.carried_places B.tail)
    (s := ⟨Cursor.ofText a fileA, none⟩) (t := ⟨Cursor.ofText (a ++ B.tail) file, none⟩) hext
    ⟨ha, fun _ => hfile⟩ rfl hs
  refine ⟨Boundary.meets_joint hmeets hplaces hlands, hmeets.fault, rfl, hv, ?_⟩
  rw [text_start]
  exact ⟨ha, List.nil_suffix⟩

/-- Two parsers at the same text, with nothing behind it, are in step. -/
theorem aligned_endOfText {M : Placing} {s t : ParserState}
    (hrest : t.scanner.cursor.rest = s.scanner.cursor.rest) (ht : t.Clean)
    (hv : t.vocabulary = s.vocabulary) (hg : s.vocabulary.Grown)
    (ha : M.Allows s.scanner.cursor.text) (hposition : s.scanner.cursor.rest ≠ [] →
      M.left s.scanner.cursor.position = M.right t.scanner.cursor.position) :
    (Boundary.endOfText.seam M).Aligned s t := by
  have hmeets : Boundary.endOfText.Meets s.scanner t.scanner :=
    ⟨fun _ => hrest.trans (List.append_nil _).symm, hrest.trans, ht⟩
  exact ⟨Boundary.meets_joint hmeets (fun _ => ⟨ha, hposition⟩) fun _ =>
    Boundary.lands_endOfText _, ht, hv, hg, ha, List.nil_suffix⟩

/-- **Programs behind each other are read as one.** If `a` is a program that leaves the vocabulary
`R`, and `b` is a program under the names of `R`, then the text of both with a newline between them
is the program of all their definitions, up to positions, and leaves the vocabulary that `b`
leaves. -/
theorem parseProgram_append {a b fileA fileB : Bytes} {P Q : Program} {R R' : Vocabulary}
    (ha : parseProgram a fileA .initial = (.ok P, R))
    (hb : parseProgram b fileB (Vocabulary.initial.extend R.types []) = (.ok Q, R'))
    (file : Bytes) :
    ∃ C, parseProgram (a ++ 0x0a :: b) file .initial = (.ok C, R') ∧
      Program.unplaced C = Program.unplaced (P ++ Q) := by
  obtain ⟨sA, hrunA, hcleanA, rfl⟩ := parseProgram_ok ha
  obtain ⟨sB, hrunB, hcleanB, rfl⟩ := parseProgram_ok hb
  obtain ⟨hgA, hstartA⟩ := iterateWithin_back _ Vocabulary.grown_initial hrunA
  rw [hgA.extend_types] at hrunB
  obtain ⟨B, htail, hnext⟩ := exists_boundary hgA hrunB hcleanB
  rw [← htail]
  -- the first program, up to its end
  obtain ⟨D, k, t₁, hD, hrun₁, hk, ht₁, hend₁⟩ := program_run_front hrunA hcleanA
    (aligned_start B .anywhere file Vocabulary.grown_initial trivial rfl (hstartA hcleanA))
  -- the second program, from its first word on: the boundary is now the end of the text
  have hrest₁ := (ht₁.atEnd hend₁).1.trans hnext
  have hk : B.next.length < k.length := hk
  rw [hnext] at hk
  obtain ⟨E, E', k', t₂, hQ, hE, hrun₂, hk', ht₂, hend₂⟩ :=
    program_front _ k D.reverse hrunB hcleanB
      (aligned_endOfText (M := .anywhere) hrest₁ ht₁.clean ht₁.vocabulary hgA trivial fun _ => rfl)
      hk
  obtain ⟨x, k'', rfl⟩ := List.exists_cons_of_length_pos (Nat.zero_lt_of_lt hk')
  have hrun := hrun₁.trans (hrun₂.trans (iterateWithin_atEnd (ht₂.atEnd hend₂).1 x k'' _))
  have hall : (E'.reverse ++ D.reverse).reverse = D ++ E' := by simp
  rw [hall] at hrun
  refine ⟨D ++ E', ?_, ?_⟩
  · rw [← ht₂.vocabulary]
    exact parseProgram_of_run hrun ht₂.clean
  · have hunplaced : (P ++ Q).map Definition.unplaced = (D ++ E').map Definition.unplaced := by
      rw [hQ]
      simp only [List.reverse_nil, List.nil_append, List.map_append]
      exact congrArg₂ (· ++ ·) hD hE
    exact hunplaced.symm

/-- The first text ends with a comment behind a body without its semicolon; the second one starts
with a line marker and uses the type that the first one declares. -/
theorem parseProgram_append_struct :
    let a := ascii "struct s \x7b int x; \x7d // the end"
    let b := ascii "# 7 \"other.c\"\ns y;"
    let R := (parseProgram a [] .initial).2
    ∃ P Q R' C, parseProgram a [] .initial = (.ok P, R) ∧
      parseProgram b [] (Vocabulary.initial.extend R.types []) = (.ok Q, R') ∧
      parseProgram (a ++ 0x0a :: b) [] .initial = (.ok C, R') ∧
      Program.unplaced C = Program.unplaced (P ++ Q) := by
  intro a b R
  have hok : ∀ r : Except SyntaxError Program × Vocabulary, r.1.isOk = true →
      ∃ P, r = (.ok P, r.2) := by
    rintro ⟨_ | P, v⟩ h
    · cases h
    · exact ⟨P, rfl⟩
  obtain ⟨P, ha⟩ := hok (parseProgram a [] .initial) (by decide +kernel)
  obtain ⟨Q, hb⟩ := hok (parseProgram b [] (Vocabulary.initial.extend R.types []))
    (by decide +kernel)
  obtain ⟨C, hC, hu⟩ := parseProgram_append ha hb []
  exact ⟨P, Q, _, C, ha, hb, hC, hu⟩

end MiniC.Grammar
