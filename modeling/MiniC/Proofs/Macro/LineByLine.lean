import Mathlib
import MiniC.Macro.Preprocessing
import MiniC.Proofs.Macro.Spelling
import MiniC.Proofs.Macro.Expansion
import MiniC.Proofs.Text.Quoted

/-!
# Lines are preprocessed one by one

What becomes of a line depends on the line, its place and the table in force there: the line
`Yields` a text or `Fails` with an error. The table in force is the first one with the definitions
on the lines before (`tableBefore`). `processLines_spec`: preprocessing gives one line of output for
each line, in order, or fails with the error of the first line that fails and leaves the table in
force at that line.

No newline comes into a line: tokens are parts of the line or of a macro's text, and what the
built-in macros stand for is quoted or a number (`newline_notMem_expandLine`). All errors of a line
are reported at its place (`Fails.position`).
-/

namespace MiniC.Macro

/-! ### Texts without a newline -/

/-- The replacement texts of the table hold no newline. -/
def Table.OneLined (t : Table) : Prop :=
  ∀ name text, t.lookup? name = some (.object text) → (0x0a : UInt8) ∉ text

section OneLined
variable {t : Table} {place : Position}

theorem Table.OneLined.text (ht : t.OneLined) (place : Position) {name : Bytes} {r : Replacement}
    (h : t.lookup? name = some r) : (0x0a : UInt8) ∉ t.text place r := by
  cases r with
  | object text => exact ht name text h
  | flag => exact List.not_mem_nil
  | builtin b =>
    cases b with
    | file => exact Quoted.newline_notMem_text _
    | line => exact Bytes.newline_notMem_ofInt _
    | date => exact Quoted.newline_notMem_text _
    | time => exact Quoted.newline_notMem_text _

theorem Table.oneLined_initial (clock : Clock) : (Table.initial clock).OneLined := by
  intro name text h
  obtain ⟨before, rest, hentries, -⟩ := List.lookup_eq_some_iff.1 h
  have hmem : (name, Replacement.object text) ∈ Table.builtins := by
    rw [show Table.builtins = _ from hentries]
    simp
  simp [Table.builtins] at hmem

theorem newline_notMem_tokens {line : Bytes} {tokens : List Token}
    (h : Token.ofLine line = .ok tokens) (hline : (0x0a : UInt8) ∉ line) :
    ∀ token ∈ tokens, (0x0a : UInt8) ∉ token.text := by
  intro token htoken hmem
  have hjoin : Token.join tokens = line := (cuts_of_ofLine h).1
  refine hline ?_
  rw [← hjoin]
  exact List.mem_flatMap.2 ⟨token, htoken, hmem⟩

/-- Expansion only puts texts of macros in. -/
theorem Expansion.newline_notMem (ht : t.OneLined) {tokens out : List Token}
    (h : Expansion t place tokens out) (hin : ∀ token ∈ tokens, (0x0a : UInt8) ∉ token.text) :
    ∀ token ∈ out, (0x0a : UInt8) ∉ token.text := by
  induction h with
  | nil => exact hin
  | keep _ _ ih =>
    rw [List.forall_mem_cons] at hin ⊢
    exact ⟨hin.1, ih hin.2⟩
  | replace hr hline _ _ ihInner ihRest =>
    rw [List.forall_mem_cons] at hin
    have htext := ht.text place (Token.replacement?_eq_some.1 hr).2
    rw [List.forall_mem_append]
    exact ⟨ihInner (newline_notMem_tokens hline htext), ihRest hin.2⟩

/-- **The expansion of a line is a line.** -/
theorem newline_notMem_expandLine (ht : t.OneLined) {line text : Bytes}
    (hline : (0x0a : UInt8) ∉ line) (h : expandLine t place line = .ok text) :
    (0x0a : UInt8) ∉ text := by
  obtain ⟨tokens, out, htokens, hout, rfl⟩ := expandLine_ok.1 h
  have hall := (expansion_of_expandTokens hout).newline_notMem ht
    (newline_notMem_tokens htokens hline)
  intro hmem
  obtain ⟨token, htoken, hnewline⟩ := List.mem_flatMap.1 hmem
  exact hall token htoken hnewline

theorem Table.lookup?_set (name other : Bytes) (r : Replacement) :
    (t.set name r).lookup? other = if other = name then some r else t.lookup? other := by
  unfold lookup? set undefine
  by_cases h : other = name
  · simp [h]
  · rw [if_neg h, List.lookup_cons, beq_false_of_ne h]
    dsimp only
    induction t.entries with
    | nil => rfl
    | cons e entries ih =>
      obtain ⟨n, r'⟩ := e
      by_cases hn : n = name
      · have hne : (other == n) = false := beq_false_of_ne (by rw [hn]; exact h)
        rw [List.filter_cons_of_neg (by simp [hn]), List.lookup_cons, hne, ih]
      · rw [List.filter_cons_of_pos (by simp [hn]), List.lookup_cons, List.lookup_cons, ih]

theorem Table.OneLined.define (ht : t.OneLined) {name value : Bytes}
    (hvalue : (0x0a : UInt8) ∉ value) : (t.define name value).OneLined := by
  intro other text h
  rw [Table.define, Table.lookup?_set] at h
  split_ifs at h with hname
  · unfold replacementOf at h
    dsimp only at h
    split_ifs at h
    · cases h
    · obtain rfl : Trim.both value = text := Replacement.object.inj (Option.some.inj h)
      exact fun hmem => hvalue ((Trim.both_infix value).subset hmem)
  · exact ht other text h

/-- The value of a definition is a part of its arguments. -/
theorem Table.OneLined.defineFrom (ht : t.OneLined) {arguments : Bytes} {t' : Table}
    (harguments : (0x0a : UInt8) ∉ arguments) (h : t.defineFrom arguments = .ok t') :
    t'.OneLined := by
  unfold Table.defineFrom Table.splitDefinition at h
  simp only [List.span_eq_takeWhile_dropWhile] at h
  split_ifs at h
  cases h
  refine ht.define fun hmem => harguments ?_
  exact (Trim.both_infix arguments).subset ((List.dropWhile_suffix _).subset hmem)

end OneLined

/-! ### Places of errors -/

section Place
variable {t : Table} {place : Position}

theorem position_of_tokensAt {line : Bytes} {e : Error} (h : tokensAt place line = .error e) :
    e.position = place := by
  unfold tokensAt at h
  split at h
  · cases h
  · cases h
    rfl

/-- An error inside the text of a macro is reported where the macro is used. -/
theorem position_of_expandText (levels : Nat) : ∀ {active : List Bytes} {line : Bytes} {e : Error},
    expandText t place levels active line = .error e → e.position = place := by
  induction levels using Nat.strongRecOn with
  | ind levels ih =>
    intro active line e h
    cases htokens : tokensAt place line with
    | error f =>
      rw [expandText, htokens] at h
      cases h
      exact position_of_tokensAt htokens
    | ok tokens =>
      rw [expandText_of_ok (tokensAt_ok.1 htokens)] at h
      obtain ⟨token, -, htoken⟩ := exists_of_expandAll_error h
      cases hr : token.replacement? t with
      | none =>
        rw [expandToken_of_none hr] at htoken
        cases htoken
      | some r =>
        rw [expandToken_of_some hr] at htoken
        split at htoken
        · cases htoken
          rfl
        · cases levels with
          | zero =>
            cases htoken
            rfl
          | succ fewer => exact ih fewer (Nat.lt_succ_self fewer) htoken

theorem position_of_expandLine {line : Bytes} {e : Error} (h : expandLine t place line = .error e) :
    e.position = place := by
  rw [expandLine_eq_map] at h
  cases htext : expandText t place maxDepth [] line with
  | ok out =>
    rw [htext] at h
    cases h
  | error f =>
    rw [htext] at h
    cases h
    exact position_of_expandText maxDepth htext

end Place

/-! ### One line -/

/-- The line becomes the text: nothing if it is a definition, itself if it is any other line that
starts with `#`, and its expansion otherwise. -/
inductive Yields (t : Table) (place : Position) (line : Bytes) : Bytes → Prop
  | definition {arguments : Bytes} {t' : Table} :
      Directive.ofLine? line = some ⟨.define, arguments⟩ → t.defineFrom arguments = .ok t' →
      Yields t place line []
  | verbatim : Directive.ofLine? line = none → Directive.isHashLine line = true →
      Yields t place line line
  | expansion {text : Bytes} : Directive.ofLine? line = none →
      Directive.isHashLine line = false → expandLine t place line = .ok text →
      Yields t place line text

/-- The line cannot be processed: it defines something that is no identifier, is a directive that is
not supported, or has no expansion. -/
inductive Fails (t : Table) (place : Position) (line : Bytes) : Error → Prop
  | badName {arguments name : Bytes} :
      Directive.ofLine? line = some ⟨.define, arguments⟩ → t.defineFrom arguments = .error name →
      Fails t place line ⟨place, 0, .badName name⟩
  | unsupported {d : Directive} : Directive.ofLine? line = some d → d.keyword ≠ .define →
      Fails t place line ⟨place, 0, .unsupported
        (Trim.both (ch '#' :: d.keyword.spelling ++ ch ' ' :: d.arguments))⟩
  | expansion {e : Error} : Directive.ofLine? line = none → Directive.isHashLine line = false →
      expandLine t place line = .error e → Fails t place line e

/-- The table behind a line: a definition on the line is added. -/
def Table.afterLine (t : Table) (line : Bytes) : Table :=
  match Directive.ofLine? line with
  | some ⟨.define, arguments⟩ => (t.defineFrom arguments).toOption.getD t
  | _ => t

section Line
variable {t : Table} {place : Position} {line : Bytes}

theorem afterLine_of_define {arguments : Bytes}
    (h : Directive.ofLine? line = some ⟨.define, arguments⟩) {t' : Table}
    (hd : t.defineFrom arguments = .ok t') : t.afterLine line = t' := by
  simp [Table.afterLine, h, hd, Except.toOption]

theorem afterLine_of_none (h : Directive.ofLine? line = none) : t.afterLine line = t := by
  simp [Table.afterLine, h]

theorem Yields.processLine {text : Bytes} (h : Yields t place line text) :
    processLine t place line = .ok (text, t.afterLine line) := by
  rcases h with ⟨hd, hdef⟩ | ⟨hd, hhash⟩ | ⟨hd, hhash, hexp⟩
  · rw [afterLine_of_define hd hdef]
    simp [Macro.processLine, hd, hdef]
  · rw [afterLine_of_none hd]
    simp [Macro.processLine, hd, hhash]
  · rw [afterLine_of_none hd]
    simp [Macro.processLine, hd, hhash, hexp, Except.map]

theorem Fails.processLine {e : Error} (h : Fails t place line e) :
    processLine t place line = .error e := by
  rcases h with ⟨hd, hdef⟩ | ⟨hd, hk⟩ | ⟨hd, hhash, hexp⟩
  · simp [Macro.processLine, hd, hdef]
  · next d =>
    obtain ⟨keyword, arguments⟩ := d
    cases keyword with
    | define => exact absurd rfl hk
    | _ => simp [Macro.processLine, hd]
  · simp [Macro.processLine, hd, hhash, hexp, Except.map]

/-- **A line either yields a text or fails.** -/
theorem yields_or_fails (t : Table) (place : Position) (line : Bytes) :
    (∃ text, Yields t place line text) ∨ ∃ e, Fails t place line e := by
  cases hd : Directive.ofLine? line with
  | some d =>
    obtain ⟨keyword, arguments⟩ := d
    by_cases hk : keyword = .define
    · subst hk
      cases hdef : t.defineFrom arguments with
      | ok t' => exact .inl ⟨[], .definition hd hdef⟩
      | error name => exact .inr ⟨_, .badName hd hdef⟩
    · exact .inr ⟨_, .unsupported hd hk⟩
  | none =>
    by_cases hhash : Directive.isHashLine line = true
    · exact .inl ⟨line, .verbatim hd hhash⟩
    · have hplain : Directive.isHashLine line = false := by simpa using hhash
      cases hexp : expandLine t place line with
      | ok text => exact .inl ⟨text, .expansion hd hplain hexp⟩
      | error e => exact .inr ⟨e, .expansion hd hplain hexp⟩

/-- No line both yields a text and fails. -/
theorem Yields.not_fails {text : Bytes} (h : Yields t place line text) (e : Error) :
    ¬ Fails t place line e := by
  intro hfails
  have hok := h.processLine
  rw [hfails.processLine] at hok
  cases hok

theorem Fails.position {e : Error} (h : Fails t place line e) : e.position = place := by
  rcases h with _ | _ | ⟨-, -, hexp⟩
  · rfl
  · rfl
  · exact position_of_expandLine hexp

theorem Yields.newline_notMem (ht : t.OneLined) (hline : (0x0a : UInt8) ∉ line) {text : Bytes}
    (h : Yields t place line text) : (0x0a : UInt8) ∉ text := by
  rcases h with _ | _ | ⟨-, -, hexp⟩
  · exact List.not_mem_nil
  · exact hline
  · exact newline_notMem_expandLine ht hline hexp

/-- The arguments of a directive are a part of its line. -/
theorem arguments_suffix {d : Directive} (h : Directive.ofLine? line = some d) :
    d.arguments <:+ line := by
  simp only [Directive.ofLine?, Option.bind_eq_bind, Option.bind_eq_some_iff] at h
  obtain ⟨body, hbody, keyword, -, h⟩ := h
  have hsuffix : body <:+ line := by
    unfold Directive.afterHash? at hbody
    split at hbody
    · next b rest hrest =>
      split_ifs at hbody
      cases hbody
      have hcons : rest <:+ b :: rest := List.suffix_cons b rest
      rw [← hrest] at hcons
      exact (List.dropWhile_suffix _).trans (hcons.trans (List.dropWhile_suffix _))
    · cases hbody
  split_ifs at h
  cases h
  exact (List.dropWhile_suffix _).trans ((List.dropWhile_suffix _).trans hsuffix)

theorem Table.OneLined.afterLine (ht : t.OneLined) (hline : (0x0a : UInt8) ∉ line) :
    (t.afterLine line).OneLined := by
  cases hd : Directive.ofLine? line with
  | none =>
    rw [afterLine_of_none hd]
    exact ht
  | some d =>
    obtain ⟨keyword, arguments⟩ := d
    have harguments : (0x0a : UInt8) ∉ arguments := fun hmem =>
      hline ((arguments_suffix hd).subset hmem)
    by_cases hk : keyword = .define
    · subst hk
      cases hdef : t.defineFrom arguments with
      | ok t' =>
        rw [afterLine_of_define hd hdef]
        exact ht.defineFrom harguments hdef
      | error name =>
        simpa [Table.afterLine, hd, hdef, Except.toOption] using ht
    · have hsame : t.afterLine line = t := by
        cases keyword with
        | define => exact absurd rfl hk
        | _ => simp [Table.afterLine, hd]
      rw [hsame]
      exact ht

end Line

/-! ### All lines -/

/-- The table in force at the line with the number `i`: the definitions on the lines before are
added. -/
def tableBefore (t : Table) (lines : List Bytes) (i : Nat) : Table :=
  (lines.take i).foldl Table.afterLine t

theorem tableBefore_succ (t : Table) (line : Bytes) (lines : List Bytes) (i : Nat) :
    tableBefore t (line :: lines) (i + 1) = tableBefore (t.afterLine line) lines i := rfl

/-- The place of the line with the number `i`, if the first of the lines is on line `number`. -/
def placeFrom (file : Bytes) (number i : Nat) : Position := ⟨file, Int64.ofNat (number + i)⟩

theorem placeFrom_succ (file : Bytes) (number i : Nat) :
    placeFrom file number (i + 1) = placeFrom file (number + 1) i := by
  rw [placeFrom, placeFrom, Nat.add_right_comm, Nat.add_assoc]

theorem Table.OneLined.tableBefore {lines : List Bytes}
    (hlines : ∀ line ∈ lines, (0x0a : UInt8) ∉ line) : ∀ {t : Table} (i : Nat), t.OneLined →
      (tableBefore t lines i).OneLined := by
  induction lines with
  | nil =>
    intro t i ht
    rw [Macro.tableBefore, List.take_nil]
    exact ht
  | cons line lines ih =>
    obtain ⟨hline, hrest⟩ := List.forall_mem_cons.1 hlines
    intro t i ht
    cases i with
    | zero => exact ht
    | succ i => exact ih hrest i (ht.afterLine hline)

section Run
variable {file : Bytes}

/-- Every line yields its text under the table in force. -/
theorem processFrom_ok {lines : List Bytes} : ∀ {number : Nat} {done out : List Bytes}
    {t t' : Table}, processFrom file number done t lines = (.ok out, t') →
    ∃ texts : List Bytes, out = done.reverse ++ texts ∧ texts.length = lines.length ∧
      t' = tableBefore t lines lines.length ∧
      ∀ i line text, lines[i]? = some line → texts[i]? = some text →
        Yields (tableBefore t lines i) (placeFrom file number i) line text := by
  induction lines with
  | nil =>
    intro number done out t t' h
    cases h
    refine ⟨[], by simp, rfl, rfl, fun i line text hline => ?_⟩
    cases hline
  | cons line lines ih =>
    intro number done out t t' h
    rw [processFrom] at h
    rcases yields_or_fails t ⟨file, Int64.ofNat number⟩ line with ⟨text, hyields⟩ | ⟨e, hfails⟩
    · rw [hyields.processLine] at h
      obtain ⟨texts, hout, hlength, ht', hall⟩ := ih h
      refine ⟨text :: texts, by simp [hout], by simp [hlength], ht', ?_⟩
      intro i line₁ text₁ hline₁ htext₁
      cases i with
      | zero =>
        cases hline₁
        cases htext₁
        exact hyields
      | succ i =>
        rw [tableBefore_succ, placeFrom_succ]
        exact hall i line₁ text₁ hline₁ htext₁
    · rw [hfails.processLine] at h
      cases h

/-- The first line that fails decides, and the table is the one in force there. -/
theorem processFrom_error {lines : List Bytes} : ∀ {number : Nat} {done : List Bytes}
    {t t' : Table} {e : Error}, processFrom file number done t lines = (.error e, t') →
    ∃ i line, lines[i]? = some line ∧
      (∀ j < i, ∀ line₁ f, lines[j]? = some line₁ →
        ¬ Fails (tableBefore t lines j) (placeFrom file number j) line₁ f) ∧
      Fails (tableBefore t lines i) (placeFrom file number i) line e ∧
      t' = tableBefore t lines i := by
  induction lines with
  | nil =>
    intro number done t t' e h
    cases h
  | cons line lines ih =>
    intro number done t t' e h
    rw [processFrom] at h
    rcases yields_or_fails t ⟨file, Int64.ofNat number⟩ line with ⟨text, hyields⟩ | ⟨f, hfails⟩
    · rw [hyields.processLine] at h
      obtain ⟨i, line₁, hline₁, hbefore, hfails, ht'⟩ := ih h
      rw [← placeFrom_succ] at hfails
      refine ⟨i + 1, line₁, hline₁, ?_, hfails, ht'⟩
      intro j hj line₂ f hline₂
      cases j with
      | zero =>
        cases hline₂
        exact hyields.not_fails f
      | succ j =>
        rw [tableBefore_succ, placeFrom_succ]
        exact hbefore j (Nat.lt_of_succ_lt_succ hj) line₂ f hline₂
    · rw [hfails.processLine] at h
      cases h
      exact ⟨0, line, rfl, fun j hj => absurd hj (Nat.not_lt_zero j), hfails, rfl⟩

end Run

theorem processLines_eq_ok {t t' : Table} {file out : Bytes} {lines : List Bytes} :
    processLines t file lines = (.ok out, t') ↔
      ∃ texts, processFrom (reportedFile file) 1 [] t lines = (.ok texts, t') ∧
        out = Bytes.join [0x0a] texts := by
  unfold processLines
  generalize processFrom (reportedFile file) 1 [] t lines = result
  obtain ⟨result, table⟩ := result
  cases result <;> simp [Except.map, eq_comm, and_comm]

theorem processLines_eq_error {t t' : Table} {file : Bytes} {lines : List Bytes} {e : Error} :
    processLines t file lines = (.error e, t') ↔
      processFrom (reportedFile file) 1 [] t lines = (.error e, t') := by
  unfold processLines
  generalize processFrom (reportedFile file) 1 [] t lines = result
  obtain ⟨result, table⟩ := result
  cases result <;> simp [Except.map]

/-- **Lines are preprocessed one by one, in order.** If preprocessing succeeds, its output has one
line for each line, which that line yields under the table in force. If it fails, it fails with the
error of the first line that fails, reported at the place of that line, and leaves the table in
force there. Lines are counted from 1, in the reported file. -/
theorem processLines_spec {t : Table} (file : Bytes) {lines : List Bytes} (hne : lines ≠ [])
    (hlines : ∀ line ∈ lines, (0x0a : UInt8) ∉ line) (ht : t.OneLined) :
    (∀ out t', processLines t file lines = (.ok out, t') →
      (out.splitOn 0x0a).length = lines.length ∧ t' = tableBefore t lines lines.length ∧
      ∀ i line, lines[i]? = some line → ∃ text, (out.splitOn 0x0a)[i]? = some text ∧
        Yields (tableBefore t lines i) ⟨reportedFile file, Int64.ofNat (i + 1)⟩ line text) ∧
    (∀ e t', processLines t file lines = (.error e, t') → ∃ i line, lines[i]? = some line ∧
      (∀ j < i, ∀ line₁ f, lines[j]? = some line₁ →
        ¬ Fails (tableBefore t lines j) ⟨reportedFile file, Int64.ofNat (j + 1)⟩ line₁ f) ∧
      Fails (tableBefore t lines i) ⟨reportedFile file, Int64.ofNat (i + 1)⟩ line e ∧
      e.position = ⟨reportedFile file, Int64.ofNat (i + 1)⟩ ∧ t' = tableBefore t lines i) := by
  have hplace : ∀ i, placeFrom (reportedFile file) 1 i =
      ⟨reportedFile file, Int64.ofNat (i + 1)⟩ := by
    intro i
    rw [placeFrom, Nat.add_comm]
  constructor
  · intro out t' h
    obtain ⟨texts, hrun, rfl⟩ := processLines_eq_ok.1 h
    obtain ⟨_, rfl, hlength, ht', hall⟩ := processFrom_ok hrun
    have hpieces : (Bytes.join [0x0a] texts).splitOn 0x0a = texts := by
      refine List.splitOn_intercalate 0x0a (fun text htext => ?_) ?_
      · obtain ⟨i, hi, hget⟩ := List.mem_iff_getElem.1 htext
        have hi' : i < lines.length := by omega
        have hyields := hall i lines[i] text (List.getElem?_eq_getElem hi')
          (by rw [List.getElem?_eq_getElem hi, hget])
        exact hyields.newline_notMem (ht.tableBefore hlines i) (hlines _ (List.getElem_mem hi'))
      · rintro rfl
        exact hne (List.eq_nil_of_length_eq_zero hlength.symm)
    rw [hpieces]
    refine ⟨hlength, ht', fun i line hline => ?_⟩
    have hi : i < texts.length := by
      rw [hlength]
      exact (List.getElem?_eq_some_iff.1 hline).1
    have hyields := hall i line texts[i] hline (List.getElem?_eq_getElem hi)
    rw [hplace] at hyields
    exact ⟨texts[i], List.getElem?_eq_getElem hi, hyields⟩
  · intro e t' h
    obtain ⟨i, line, hline, hbefore, hfails, ht'⟩ := processFrom_error (processLines_eq_error.1 h)
    simp only [hplace] at hbefore hfails
    exact ⟨i, line, hline, hbefore, hfails, hfails.position, ht'⟩

/-- A macro is defined and used, and then a directive follows that is not supported. -/
theorem processLines_spec_undef :
    let t := Table.initial ⟨2024, 1, 2, 3, 4, 5⟩
    let lines := [ascii "#define ONE 1", ascii "int x = ONE;"]
    let more := lines ++ [ascii "#undef ONE"]
    (∃ t', processLines t [] lines = (.ok (ascii "\nint x = 1;"), t') ∧
      Yields (tableBefore t lines 1) ⟨ascii "editor", 2⟩ (ascii "int x = ONE;")
        (ascii "int x = 1;")) ∧
    ∃ e t' i, processLines t [] more = (.error e, t') ∧
      e.position = ⟨ascii "editor", Int64.ofNat (i + 1)⟩ ∧ t' = tableBefore t more i := by
  intro t lines more
  have hok : ∀ (r : Except Error Bytes × Table) (out : Bytes), r.1.toOption = some out →
      ∃ t', r = (.ok out, t') := by
    rintro ⟨e | out, t'⟩ _ h
    · cases h
    · cases h
      exact ⟨t', rfl⟩
  have herror : ∀ r : Except Error Bytes × Table, r.1.toOption = none →
      ∃ e t', r = (.error e, t') := by
    rintro ⟨e | out, t'⟩ h
    · exact ⟨e, t', rfl⟩
    · cases h
  have hmore : ∀ line ∈ more, (0x0a : UInt8) ∉ line := by decide
  have hlines : ∀ line ∈ lines, (0x0a : UInt8) ∉ line := fun line hline =>
    hmore line (List.mem_append_left _ hline)
  have ht : t.OneLined := Table.oneLined_initial _
  constructor
  · obtain ⟨t', h⟩ := hok (processLines t [] lines) (ascii "\nint x = 1;") (by decide +kernel)
    obtain ⟨text, htext, hyields⟩ :=
      ((processLines_spec [] (List.cons_ne_nil _ _) hlines ht).1 _ _ h).2.2 1
        (ascii "int x = ONE;") rfl
    have hpieces : (ascii "\nint x = 1;").splitOn 0x0a = [[], ascii "int x = 1;"] := by
      decide +kernel
    rw [hpieces] at htext
    obtain rfl : ascii "int x = 1;" = text := Option.some.inj htext
    exact ⟨t', h, hyields⟩
  · obtain ⟨e, t', h⟩ := herror (processLines t [] more) (by decide +kernel)
    obtain ⟨i, line, -, -, -, hposition, ht'⟩ :=
      (processLines_spec [] (List.cons_ne_nil _ _) hmore ht).2 _ _ h
    exact ⟨e, t', i, h, hposition, ht'⟩

end MiniC.Macro
