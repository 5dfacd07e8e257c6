import MiniC.Proofs.Macro.JoinedComment

/-!
# A comment behind a source

The output for a source with a line `//…` behind it. If the line is a logical line of its own, the
output is the one of the source with the expanded line behind it (`preprocess_standsAlone`). If it
is joined to the last line, only the output for that line changes.

* `preprocess_comment`: in both cases the output is the one of the source, with or without a newline
  behind it, and with a comment joined to that, if there is an output.
-/

namespace MiniC.Macro

section Line
variable {t : Table} {place : Position}

/-- The line of a comment is expanded; it is no directive. -/
theorem processLine_comment (c : Bytes) : processLine t place (ascii "//" ++ c) =
    (expandLine t place (ascii "//" ++ c)).map fun text => (text, t) := by
  have hnone : Directive.ofLine? (ascii "//" ++ c) = none := rfl
  have hhash : Directive.isHashLine (ascii "//" ++ c) = false := rfl
  rw [processLine, hnone]
  simp only [hhash]
  rfl

theorem processLine_nil : processLine t place [] = .ok ([], t) := rfl

theorem yields_of_processLine {t' : Table} {line text : Bytes}
    (h : processLine t place line = .ok (text, t')) : Yields t place line text := by
  rcases yields_or_fails t place line with ⟨text', hyields⟩ | ⟨e, hfails⟩
  · cases h.symm.trans hyields.processLine
    exact hyields
  · cases h.symm.trans hfails.processLine

end Line

/-! ### All lines and one more -/

section Run
variable {file : Bytes}

theorem processFrom_cons_eq_ok {line : Bytes} {lines done out : List Bytes} {number : Nat}
    {t t' : Table} : processFrom file number done t (line :: lines) = (.ok out, t') ↔
      ∃ text t₁, processLine t ⟨file, Int64.ofNat number⟩ line = .ok (text, t₁) ∧
        processFrom file (number + 1) (text :: done) t₁ lines = (.ok out, t') := by
  rw [processFrom]
  rcases processLine t ⟨file, Int64.ofNat number⟩ line with e | ⟨text, t₁⟩
  · simp
  · simp

/-- Lines in front are processed as if they were alone. -/
theorem processFrom_append (rest : List Bytes) : ∀ {lines : List Bytes} {number : Nat}
    {done out : List Bytes} {t t' : Table}, processFrom file number done t lines = (.ok out, t') →
    processFrom file number done t (lines ++ rest) =
      processFrom file (number + lines.length) out.reverse t' rest
  | [], number, done, out, t, t', h => by
    cases h
    rw [List.nil_append, List.reverse_reverse]
    rfl
  | line :: lines, number, done, out, t, t', h => by
    obtain ⟨text, t₁, hline, hlines⟩ := processFrom_cons_eq_ok.1 h
    rw [List.cons_append, processFrom, hline, List.length_cons, ← Nat.add_assoc,
      Nat.add_right_comm]
    exact processFrom_append rest hlines

theorem exists_of_processFrom_append (rest : List Bytes) : ∀ {lines : List Bytes} {number : Nat}
    {done out : List Bytes} {t t' : Table},
    processFrom file number done t (lines ++ rest) = (.ok out, t') →
    ∃ out₁ t₁, processFrom file number done t lines = (.ok out₁, t₁)
  | [], number, done, out, t, t', _ => ⟨_, _, rfl⟩
  | line :: lines, number, done, out, t, t', h => by
    obtain ⟨text, t₁, hline, hlines⟩ := processFrom_cons_eq_ok.1 h
    obtain ⟨out₁, t₂, hfront⟩ := exists_of_processFrom_append rest hlines
    exact ⟨out₁, t₂, processFrom_cons_eq_ok.2 ⟨text, t₁, hline, hfront⟩⟩

end Run

theorem join_concat (text : Bytes) : ∀ {texts : List Bytes}, texts ≠ [] →
    Bytes.join [0x0a] (texts ++ [text]) = Bytes.join [0x0a] texts ++ 0x0a :: text
  | [], h => absurd rfl h
  | [first], _ => by
    rw [Bytes.join, Bytes.join, List.singleton_append, List.intercalate_cons_cons]
    simp
  | first :: next :: texts, _ => by
    have ih := join_concat text (List.cons_ne_nil next texts)
    rw [Bytes.join, Bytes.join, List.cons_append] at ih
    rw [Bytes.join, Bytes.join, List.cons_append, List.cons_append, List.intercalate_cons_cons,
      List.intercalate_cons_cons, ih]
    simp

/-- Behind lines with the given output, a comment adds a line with its expansion. -/
theorem processLines_comment {t t' : Table} {file : Bytes} {front texts : List Bytes}
    (h : processFrom (reportedFile file) 1 [] t front = (.ok texts, t')) (hne : texts ≠ [])
    (c : Bytes) :
    (processLines t file (front ++ [ascii "//" ++ c])).1 =
      (expandLine t' ⟨reportedFile file, Int64.ofNat (front.length + 1)⟩ (ascii "//" ++ c)).map
        fun text => Bytes.join [0x0a] texts ++ 0x0a :: text := by
  rw [processLines, processFrom_append _ h, processFrom, processLine_comment, Nat.add_comm 1]
  cases expandLine t' ⟨reportedFile file, Int64.ofNat (front.length + 1)⟩ (ascii "//" ++ c) with
  | error e => rfl
  | ok text =>
    have hjoin := join_concat text hne
    simp only [Except.map, processFrom, List.reverse_cons, List.reverse_reverse, hjoin]

/-- The output for lines, with or without an empty one at the end, up to the line behind them. -/
theorem exists_front {t : Table} {file out : Bytes} {lines front : List Bytes} (hne : front ≠ [])
    (hlines : lines = front ∨ lines = front ++ [[]])
    (h : (processLines t file lines).1 = .ok out) :
    ∃ texts gap, texts ≠ [] ∧ processFrom (reportedFile file) 1 [] t front =
        (.ok texts, tableBefore t lines lines.length) ∧
      (gap = [] ∨ gap = [0x0a]) ∧ Bytes.join [0x0a] texts ++ [0x0a] = out ++ gap := by
  have hpair : processLines t file lines = (.ok out, (processLines t file lines).2) :=
    Prod.ext h rfl
  obtain ⟨all, hrun, rfl⟩ := processLines_eq_ok.1 hpair
  obtain ⟨_, -, -, htable, -⟩ := processFrom_ok hrun
  rw [htable] at hrun
  have hfull : ∀ {texts : List Bytes} {t' : Table},
      processFrom (reportedFile file) 1 [] t front = (.ok texts, t') → texts ≠ [] := by
    rintro texts t' hfront rfl
    obtain ⟨texts, htexts, hlength, -⟩ := processFrom_ok hfront
    rw [List.reverse_nil, List.nil_append] at htexts
    rw [← htexts] at hlength
    exact hne (List.eq_nil_of_length_eq_zero hlength.symm)
  rcases hlines with rfl | rfl
  · exact ⟨all, [0x0a], hfull hrun, hrun, .inr rfl, rfl⟩
  · obtain ⟨texts, t', hfront⟩ := exists_of_processFrom_append _ hrun
    -- the empty line adds nothing to the table
    rw [processFrom_append _ hfront, processFrom, processLine_nil] at hrun
    simp only [processFrom, Prod.mk.injEq, Except.ok.injEq, List.reverse_cons,
      List.reverse_reverse] at hrun
    obtain ⟨rfl, rfl⟩ := hrun
    have hjoin := join_concat [] (hfull hfront)
    refine ⟨texts, [], hfull hfront, hfront, .inl rfl, ?_⟩
    rw [hjoin, List.append_nil]

section Source
variable {s c file out : Bytes} {o : Options}

/-- **What a comment adds to the output:** its expansion, on a line of its own. -/
theorem preprocess_standsAlone {front : List Bytes}
    (hs : LogicalLine.StandsAlone s (ascii "//" ++ c) front) (h : preprocess s file o = .ok out) :
    ∃ gap, (gap = [] ∨ gap = [0x0a]) ∧
      preprocess (s ++ 0x0a :: (ascii "//" ++ c)) file o =
        (expandLine (tableBefore o.table (LogicalLine.ofSource s) (LogicalLine.ofSource s).length)
          ⟨reportedFile file,
            Int64.ofNat (LogicalLine.ofSource (s ++ 0x0a :: (ascii "//" ++ c))).length⟩
          (ascii "//" ++ c)).map fun text => out ++ gap ++ text := by
  obtain ⟨texts, gap, hfull, hrun, hgap, hout⟩ := exists_front hs.nonempty hs.before h
  refine ⟨gap, hgap, ?_⟩
  have hline : ∀ text, out ++ gap ++ text = Bytes.join [0x0a] texts ++ 0x0a :: text := by
    intro text
    rw [← hout, List.append_assoc]
    rfl
  simp only [preprocess, hs.after, hline, List.length_append, List.length_singleton]
  exact processLines_comment hrun hfull c

/-- The output for a last line stands behind that for the lines before it. -/
theorem processLines_concat_ok {t : Table} {file out : Bytes} {front : List Bytes} {line : Bytes}
    (h : (processLines t file (front ++ [line])).1 = .ok out) :
    ∃ texts text, processFrom (reportedFile file) 1 [] t front =
        (.ok texts, tableBefore t front front.length) ∧
      Yields (tableBefore t front front.length)
        ⟨reportedFile file, Int64.ofNat (1 + front.length)⟩ line text ∧
      out = Bytes.join [0x0a] (texts ++ [text]) := by
  have hpair : processLines t file (front ++ [line]) =
      (.ok out, (processLines t file (front ++ [line])).2) := Prod.ext h rfl
  obtain ⟨all, hrun, rfl⟩ := processLines_eq_ok.1 hpair
  obtain ⟨texts, t₁, hfront⟩ := exists_of_processFrom_append _ hrun
  obtain ⟨_, -, -, rfl, -⟩ := processFrom_ok hfront
  rw [processFrom_append _ hfront] at hrun
  obtain ⟨text, t₂, hline, hlast⟩ := processFrom_cons_eq_ok.1 hrun
  refine ⟨texts, text, hfront, yields_of_processLine hline, ?_⟩
  rw [processFrom, Prod.mk.injEq, Except.ok.injEq, List.reverse_cons, List.reverse_reverse] at hlast
  rw [hlast.1]

theorem Commented.append {text text' : Bytes} (h : Commented text text') (before : Bytes) :
    Commented (before ++ text) (before ++ text') := by
  rcases h with rfl | ⟨front, old, new, rfl, rfl, hend⟩
  · exact .inl rfl
  · exact .inr ⟨before ++ front, old, new, by simp, by simp, hend⟩

theorem exists_join_concat (texts : List Bytes) : ∃ before : Bytes, ∀ text,
    Bytes.join [0x0a] (texts ++ [text]) = before ++ text := by
  by_cases hne : texts = []
  · refine ⟨[], fun text => ?_⟩
    rw [hne, List.nil_append, List.nil_append, Bytes.join, List.intercalate_singleton]
  · refine ⟨Bytes.join [0x0a] texts ++ [0x0a], fun text => ?_⟩
    rw [join_concat text hne, List.append_assoc]
    rfl

/-- A comment that is joined to the last line changes the output for that line only. -/
theorem preprocess_isJoined {out' : Bytes} {front : List Bytes} {last : Bytes}
    (ht : o.table.OneLined) (hc : ∀ b ∈ c, isInert b = true)
    (hs : LogicalLine.IsJoined s (ascii "//" ++ c) front last) (h : preprocess s file o = .ok out)
    (h' : preprocess (s ++ 0x0a :: (ascii "//" ++ c)) file o = .ok out') : Commented out out' := by
  have hlines := LogicalLine.newline_notMem_ofSource s
  rw [preprocess, hs.before] at h
  rw [preprocess, hs.after] at h'
  rw [hs.before] at hlines
  obtain ⟨texts, text, hfront, hyields, rfl⟩ := processLines_concat_ok h
  obtain ⟨texts', text', hfront', hyields', rfl⟩ := processLines_concat_ok h'
  cases hfront.symm.trans hfront'
  have htable := ht.tableBefore (fun line hline => hlines line (List.mem_append_left _ hline))
    front.length
  obtain ⟨q, old, new, hold, hnew, hend⟩ := Trigraph.exists_joinedEnd hc last
  have hq : (0x0a : UInt8) ∉ q := fun hmem =>
    hlines (Trigraph.replace last) (List.mem_append_right _ List.mem_cons_self)
      (hold ▸ List.mem_append_left _ hmem)
  rw [hold] at hyields
  rw [hnew] at hyields'
  obtain ⟨before, hbefore⟩ := exists_join_concat texts
  rw [hbefore, hbefore]
  exact (hyields.joined htable hend hq hyields').append before

/-- **What a comment behind a source does to the output,** if there is one with it. -/
theorem preprocess_comment {out' : Bytes} (ht : o.table.OneLined)
    (hc : ∀ b ∈ c, isInert b = true) (h : preprocess s file o = .ok out)
    (h' : preprocess (s ++ 0x0a :: (ascii "//" ++ c)) file o = .ok out') :
    ∃ gap, (gap = [] ∨ gap = [0x0a]) ∧ Commented (out ++ gap) out' := by
  rcases LogicalLine.ofSource_concat (isInert_comment hc) s with
    ⟨front, halone⟩ | ⟨-, front, last, hjoined⟩
  · obtain ⟨gap, hgap, hcomment⟩ := preprocess_standsAlone halone h
    rw [h'] at hcomment
    cases hexpand : expandLine (tableBefore o.table (LogicalLine.ofSource s)
      (LogicalLine.ofSource s).length) ⟨reportedFile file,
        Int64.ofNat (LogicalLine.ofSource (s ++ 0x0a :: (ascii "//" ++ c))).length⟩
      (ascii "//" ++ c) with
    | error e =>
      rw [hexpand] at hcomment
      cases hcomment
    | ok text =>
      rw [hexpand] at hcomment
      obtain rfl : out' = out ++ gap ++ text := Except.ok.inj hcomment
      have hline : (0x0a : UInt8) ∉ text :=
        newline_notMem_expandLine (ht.tableBefore (LogicalLine.newline_notMem_ofSource s) _)
          (newline_notMem_of_isInert (isInert_comment hc)) hexpand
      obtain ⟨body, rfl⟩ := exists_expandLine_comment hexpand
      have hbody : (0x0a : UInt8) ∉ body := fun hmem => hline (List.mem_append_right _ hmem)
      exact ⟨gap, hgap, .inr ⟨out ++ gap, [], _, by simp, rfl, .behind hbody⟩⟩
  · refine ⟨[], .inl rfl, ?_⟩
    rw [List.append_nil]
    exact preprocess_isJoined ht hc hjoined h h'

end Source

end MiniC.Macro
