import MiniC.Grammar.Program
import MiniC.Proofs.Grammar.Run
import MiniC.Proofs.Scan.Seam
import MiniC.Proofs.Syntax.Vocabulary

/-!
# Parsers in step

Two runs are compared, on texts that agree up to a `Seam`. The runs are in step (`Seam.Aligned`)
while both stand at the same place in front of the seam, and still at the end of the first text,
where the second run stands at the first word behind it. Their positions are compared as a `Placing`
says.

`S.Tracks P Q V p q` says that `q` does on the second text what `p` does on the first, with results
that are related by `V`. The runs of `p` that count are those that end in `Q`; they start in `P`. A
run that ends in front of the seam (`Seam.Live`) was never behind it, so that it cannot have seen
where the texts part: `S.Inside` is for such runs. A run that starts in front of the seam may also
end behind it; `S.Finishes` is for these. There are rules for each operation of `Parser`, and
`Tracks.bind` puts parsers together.
-/

namespace MiniC

open Scan Grammar MiniC.Parser

/-- No comment was found open. -/
def ParserState.Clean (s : ParserState) : Prop := s.scanner.fault = none

open ParserState

namespace Scan.Seam

/-! ### States in step -/

variable {α β γ δ : Type} {M : Placing} {S : Seam M} {P Q R : ParserState → Prop}
  {V : α → β → Prop} {W : γ → δ → Prop} {p p' : Parser α} {q q' : Parser β} {f : α → Parser γ}
  {g : β → Parser δ} {s s' t : ParserState} {w : Bytes}

/-- The parser is in front of the seam, and no comment was found open. -/
def Live (S : Seam M) (s : ParserState) : Prop := S.Ahead s.scanner.cursor ∧ s.Clean

theorem Live.clean (h : S.Live s) : s.Clean := h.2

/-- The vocabulary holds identifiers only, and the text is one that ends at the seam. -/
structure Regular (S : Seam M) (s : ParserState) : Prop where
  grown : s.vocabulary.Grown
  allows : S.Allows s.scanner.cursor.text

theorem Regular.skip (h : S.Regular s) (n : Nat) (keep : Bool) :
    S.Regular { s with scanner := (s.scanner.advanceBy n).skip keep } where
  grown := h.grown
  allows := by
    rw [Cursor.text_skip, Scanner.advanceBy, Cursor.text_advanceBy]
    exact h.allows

/-- The second run stands where the first one does, or both are behind the seam. -/
structure Aligned (S : Seam M) (s t : ParserState) : Prop where
  meets : S.Meets M s.scanner.cursor t.scanner.cursor
  clean : t.Clean
  vocabulary : t.vocabulary = s.vocabulary
  regular : S.Regular s

theorem Aligned.near (h : S.Aligned s t) (hs : S.Live s) :
    S.Near M s.scanner.cursor t.scanner.cursor :=
  h.meets.ahead hs.1

/-- At the end of the first text the second run is at what follows. -/
theorem Aligned.atEnd (h : S.Aligned s t) (hr : s.scanner.cursor.rest = []) :
    t.scanner.cursor.rest = S.next ∧ S.Lands t.scanner.cursor.position := by
  cases h.meets.past fun ha => ha.rest_ne_nil hr with
  | atEnd _ hrest hlands => exact ⟨hrest, hlands⟩
  | astray hne => exact absurd hr hne

/-- `q` does on the second text what `p` does on the first, in runs of `p` from `P` to `Q`. -/
structure Tracks (S : Seam M) (P Q : ParserState → Prop) (V : α → β → Prop) (p : Parser α)
    (q : Parser β) : Prop where
  back : ∀ ⦃s : ParserState⦄ ⦃a : α⦄ ⦃s' : ParserState⦄, S.Regular s →
    p.run s = .ok a s' → S.Regular s' ∧ (∃ b, V a b) ∧ (Q s' → P s)
  step : ∀ ⦃s : ParserState⦄ ⦃a : α⦄ ⦃s' : ParserState⦄, p.run s = .ok a s' → Q s' →
    ∀ ⦃t⦄, S.Aligned s t → ∃ b t', q.run t = .ok b t' ∧ V a b ∧ S.Aligned s' t'

/-- The runs that end in front of the seam. -/
abbrev Inside (S : Seam M) (V : α → β → Prop) (p : Parser α) (q : Parser β) : Prop :=
  S.Tracks S.Live S.Live V p q

/-- The runs that start in front of the seam. -/
abbrev Finishes (S : Seam M) (V : α → β → Prop) (p : Parser α) (q : Parser β) : Prop :=
  S.Tracks S.Live Clean V p q

/-! ### Putting parsers together -/

namespace Tracks

theorem pure {a : α} {b : β} (h : V a b) : S.Tracks P P V (pure a) (pure b) where
  back := by
    intro s a' s' hs hrun
    cases hrun
    exact ⟨hs, ⟨b, h⟩, id⟩
  step := by
    intro s a' s' hrun hP t ht
    cases hrun
    exact ⟨b, t, rfl, h, ht⟩

theorem bind (h : S.Tracks P Q V p q) (k : ∀ a b, V a b → S.Tracks Q R W (f a) (g b)) :
    S.Tracks P R W (p >>= f) (q >>= g) where
  back := by
    intro s c s' hs hrun
    obtain ⟨a, s₁, h₁, h₂⟩ := Parser.run_bind_ok hrun
    obtain ⟨hs₁, ⟨b, hab⟩, hP⟩ := h.back hs h₁
    obtain ⟨hs', hc, hQ⟩ := (k a b hab).back hs₁ h₂
    exact ⟨hs', hc, fun hR => hP (hQ hR)⟩
  step := by
    intro s c s' hrun hR t ht
    obtain ⟨a, s₁, h₁, h₂⟩ := Parser.run_bind_ok hrun
    obtain ⟨hs₁, ⟨b₀, hab₀⟩, -⟩ := h.back ht.regular h₁
    have hQ : Q s₁ := ((k a b₀ hab₀).back hs₁ h₂).2.2 hR
    obtain ⟨b, t₁, hq, hab, ht₁⟩ := h.step h₁ hQ ht
    obtain ⟨d, t', hg, hcd, ht'⟩ := (k a b hab).step h₂ hR ht₁
    exact ⟨d, t', (Parser.run_bind_of_ok hq).trans hg, hcd, ht'⟩

theorem mono {V' : α → β → Prop} (h : S.Tracks P Q V p q) (hV : ∀ a b, V a b → V' a b) :
    S.Tracks P Q V' p q where
  back := by
    intro s a s' hs hrun
    obtain ⟨hs', ⟨b, hab⟩, hP⟩ := h.back hs hrun
    exact ⟨hs', ⟨b, hV a b hab⟩, hP⟩
  step := by
    intro s a s' hrun hQ t ht
    obtain ⟨b, t', hq, hab, ht'⟩ := h.step hrun hQ ht
    exact ⟨b, t', hq, hV a b hab, ht'⟩

/-- Fewer runs count if fewer ends do. -/
theorem inside (h : S.Finishes V p q) : S.Inside V p q where
  back := by
    intro s a s' hs hrun
    obtain ⟨hs', hab, hP⟩ := h.back hs hrun
    exact ⟨hs', hab, fun hQ => hP hQ.clean⟩
  step := fun s a s' hrun hQ t ht => h.step hrun hQ.clean ht

theorem weaken (h : S.Finishes V p q) : S.Tracks Clean Clean V p q where
  back := by
    intro s a s' hs hrun
    obtain ⟨hs', hab, hP⟩ := h.back hs hrun
    exact ⟨hs', hab, fun hQ => (hP hQ).clean⟩
  step := h.step

/-- A value that may be missing, and what is done in either case. -/
theorem option {F : (Position → Position) → γ → γ} {o o' : Parser (Option γ)}
    {k k' : Option γ → Parser α} {V : α → α → Prop} (h : S.Tracks P Q (M.LikeOption F) o o')
    (hsome : ∀ c d, M.Like F c d → S.Tracks Q R V (k (some c)) (k' (some d)))
    (hnone : S.Tracks Q R V (k none) (k' none)) : S.Tracks P R V (o >>= k) (o' >>= k') := by
  refine h.bind fun c d hcd => ?_
  cases c with
  | none =>
    cases d with
    | none => exact hnone
    | some d => cases hcd
  | some c =>
    cases d with
    | none => cases hcd
    | some d => exact hsome c d (Option.some.inj hcd)

/-- A parser that always fails. -/
theorem of_error (h : ∀ s a s', p.run s ≠ .ok a s') : S.Tracks P Q V p q where
  back := fun s a s' _ hrun => absurd hrun (h s a s')
  step := fun s a s' hrun => absurd hrun (h s a s')

/-- A test and its two branches. -/
theorem cond {c d : Parser Bool} (hc : S.Tracks P Q (· = ·) c d) (h₁ : S.Tracks Q R V p q)
    (h₂ : S.Tracks Q R V p' q') :
    S.Tracks P R V (c >>= fun b => if b then p else p') (d >>= fun b => if b then q else q') := by
  refine hc.bind fun b _ hb => ?_
  subst hb
  cases b with
  | true => exact h₁
  | false => exact h₂

end Tracks

theorem unexpected_tracks (what : Bytes) : S.Tracks P Q V (Parser.unexpected what) q :=
  .of_error fun _ _ _ h => by cases h

theorem throw_tracks (e : Failure) : S.Tracks P Q V (throw e : Parser α) q :=
  .of_error fun _ _ _ h => by cases h

/-! ### Operations that leave the cursor alone -/

/-- A parser that only looks at the state. -/
theorem look_tracks {F : ParserState → α} {G : ParserState → β} (hp : ∀ s, p.run s = .ok (F s) s)
    (hq : ∀ t, q.run t = .ok (G t) t) (hV : ∀ s : ParserState, S.Regular s → ∃ b, V (F s) b)
    (h : ∀ s t, P s → S.Aligned s t → V (F s) (G t)) : S.Tracks P P V p q where
  back := by
    intro s a s' hs hrun
    rw [hp] at hrun
    cases hrun
    exact ⟨hs, hV s hs, id⟩
  step := by
    intro s a s' hrun hP t ht
    rw [hp] at hrun
    cases hrun
    exact ⟨G t, t, hq t, h s t hP ht, ht⟩

theorem here_inside : S.Inside (fun p q => M.left p = M.right q) here here :=
  look_tracks (fun _ => rfl) (fun _ => rfl) (fun s _ => M.exists_right s.scanner.cursor.position)
    fun _ _ hs ht => (ht.near hs).places.position hs.1.rest_ne_nil

theorem get_tracks : S.Tracks P P
    (fun s t : ParserState => t.vocabulary = s.vocabulary ∧ s.vocabulary.Grown)
    get get :=
  look_tracks (fun _ => rfl) (fun _ => rfl) (fun s hs => ⟨s, rfl, hs.grown⟩)
    fun _ _ _ ht => ⟨ht.vocabulary, ht.regular.grown⟩

/-- The cursors may be gone back to: they are at the same place, if the first one is in front of the
seam. -/
structure Matches (S : Seam M) (c d : Cursor) : Prop where
  allows : S.Allows c.text
  near : S.Ahead c → S.Near M c d

theorem Aligned.matches (h : S.Aligned s t) : S.Matches s.scanner.cursor t.scanner.cursor :=
  ⟨h.regular.allows, h.meets.ahead⟩

/-- A place to come back to. -/
theorem mark_bind {f : Cursor → Parser α} {g : Cursor → Parser β}
    (h : ∀ c d : Cursor, S.Matches c d → S.Tracks P Q V (f c) (g d)) :
    S.Tracks P Q V (mark >>= f) (mark >>= g) where
  back := by
    intro s a s' hs hrun
    obtain ⟨d, hd⟩ := S.exists_near hs.allows.allowed
    exact (h s.scanner.cursor d ⟨hs.allows, hd⟩).back hs hrun
  step := fun s a s' hrun hQ t ht => (h _ _ ht.matches).step hrun hQ ht

theorem atEnd_inside : S.Inside (· = ·) atEnd atEnd :=
  look_tracks (fun _ => rfl) (fun _ => rfl) (fun _ _ => ⟨_, rfl⟩) fun s t hs ht => by
    have hempty : ∀ l : Bytes, l.isEmpty = l.head?.isNone := fun l => by cases l <;> rfl
    rw [Cursor.atEnd, Cursor.atEnd, hempty, hempty, (ht.near hs).head?]

theorem test_inside {inClass : UInt8 → Bool} :
    S.Inside (· = ·) (test fun s => s.cursor.at? inClass) (test fun s => s.cursor.at? inClass) :=
  look_tracks (fun _ => rfl) (fun _ => rfl) (fun _ _ => ⟨_, rfl⟩) fun s t hs ht => by
    simp only [Cursor.at?, (ht.near hs).head?]

theorem budget_inside : S.Inside (fun m n => m.length ≤ n.length) budget budget :=
  look_tracks (fun _ => rfl) (fun _ => rfl) (fun _ _ => ⟨_, le_refl _⟩) fun s t hs ht => by
    obtain ⟨q, -, hc, hd⟩ := (ht.near hs).rest
    have := S.length_le
    rw [hc, hd]
    simp only [List.length_cons, List.length_append]
    omega

/-- The way back leads to a place in front of the seam. -/
theorem restore_tracks {c d : Cursor} (h : S.Matches c d) :
    S.Tracks Clean S.Live (fun _ _ => True) (restore c) (restore d) where
  back := by
    intro s a s' hs hrun
    cases hrun
    exact ⟨⟨hs.grown, h.allows⟩, ⟨(), trivial⟩, fun hl => hl.clean⟩
  step := by
    intro s a s' hrun hl t ht
    cases hrun
    exact ⟨(), _, rfl, trivial, ⟨h.near, fun hn => absurd hl.1 hn⟩, ht.clean, ht.vocabulary,
      ht.regular.grown, h.allows⟩

/-- Looking for a word, where both runs find the same words. -/
theorem peek_step {b : Bool} (hw : Seamless w) (hrun : (peek w).run s = .ok b s') (hs' : s'.Clean)
    (ht : S.Aligned s t) (hfound : leads w s.scanner.cursor.rest = true →
      S.Near M s.scanner.cursor t.scanner.cursor)
    (hlead : leads w t.scanner.cursor.rest = leads w s.scanner.cursor.rest) :
    ∃ c t', (peek w).run t = .ok c t' ∧ b = c ∧ S.Aligned s' t' := by
  rw [peek_run] at hrun ⊢
  rw [hlead]
  split_ifs at hrun ⊢ with hl
  · cases hrun
    have hnear := hfound hl
    have hfault := (S.keeps hnear hw.length_pos (length_of_leads hnear hw hl) ht.clean hs').2
    exact ⟨true, _, rfl, rfl, ht.meets, hfault, ht.vocabulary, ht.regular.grown,
      ht.regular.allows⟩
  · cases hrun
    exact ⟨false, t, rfl, rfl, ht⟩

theorem peek_back {b : Bool} (hrun : (peek w).run s = .ok b s') :
    s'.vocabulary = s.vocabulary ∧ s'.scanner.cursor = s.scanner.cursor ∧
      (s'.Clean → s.Clean) := by
  rw [peek_run] at hrun
  split_ifs at hrun
  · cases hrun
    exact ⟨rfl, rfl, Scanner.fault_of_skip (s := s.scanner.advanceBy w.length)⟩
  · cases hrun
    exact ⟨rfl, rfl, id⟩

theorem peek_inside (hw : Seamless w) : S.Inside (· = ·) (peek w) (peek w) where
  back := by
    intro s b s' hs hrun
    obtain ⟨hv, hc, hclean⟩ := peek_back hrun
    exact ⟨⟨hv ▸ hs.grown, hc ▸ hs.allows⟩, ⟨b, rfl⟩, fun hl => ⟨hc ▸ hl.1, hclean hl.clean⟩⟩
  step := by
    intro s b s' hrun hl t ht
    have hnear := ht.meets.ahead ((peek_back hrun).2.1 ▸ hl.1)
    exact peek_step hw hrun hl.clean ht (fun _ => hnear) (leads_eq hnear hw)

/-- A mark is looked for in step everywhere: behind the seam it is found in neither text. -/
theorem Aligned.mark (ht : S.Aligned s t) (hw : Plain w) (hm : w.head?.any isIdentStart = false) :
    (leads w s.scanner.cursor.rest = true → S.Near M s.scanner.cursor t.scanner.cursor) ∧
      leads w t.scanner.cursor.rest = leads w s.scanner.cursor.rest := by
  by_cases ha : S.Ahead s.scanner.cursor
  · have hnear := ht.meets.ahead ha
    exact ⟨fun _ => hnear, leads_eq hnear hw.1⟩
  · obtain ⟨h₁, h₂⟩ := leads_past (ht.meets.past ha) hw hm
    exact ⟨fun hl => absurd (h₁.symm.trans hl) (by decide), h₂.trans h₁.symm⟩

theorem peek_mark (hw : Plain w) (hm : w.head?.any isIdentStart = false) :
    S.Tracks Clean Clean (· = ·) (peek w) (peek w) where
  back := by
    intro s b s' hs hrun
    obtain ⟨hv, hc, hclean⟩ := peek_back hrun
    exact ⟨⟨hv ▸ hs.grown, hc ▸ hs.allows⟩, ⟨b, rfl⟩, hclean⟩
  step := fun s b s' hrun hl t ht =>
    peek_step hw.1 hrun hl ht (ht.mark hw hm).1 (ht.mark hw hm).2

theorem firstPeeked_inside {word : γ → Bytes} : ∀ {l : List γ}, (∀ a ∈ l, Seamless (word a)) →
    S.Inside (· = ·) (firstPeeked word l) (firstPeeked word l)
  | [], _ => Tracks.pure rfl
  | a :: l, hl =>
    (peek_inside (hl a (by simp))).cond (Tracks.pure rfl)
      (firstPeeked_inside fun c hc => hl c (by simp [hc]))

/-! ### Operations that move the cursor -/

/-- Moving on by some bytes and over the blanks behind them. -/
theorem Aligned.skip {n : Nat} (ht : S.Aligned s t)
    (hnear : S.Near M s.scanner.cursor t.scanner.cursor) (h₀ : 0 < n)
    (hn : S.old.length + n ≤ s.scanner.cursor.rest.length)
    (hf : ((s.scanner.advanceBy n).skip false).fault = none) :
    S.Aligned { s with scanner := (s.scanner.advanceBy n).skip false }
      { t with scanner := (t.scanner.advanceBy n).skip false } := by
  obtain ⟨hmeets, hclean⟩ := S.skips hnear h₀ hn ht.clean hf
  exact ⟨hmeets, hclean, ht.vocabulary, ht.regular.skip n false⟩

/-- Moving over a word and the blanks behind it. -/
theorem Aligned.skip_word (ht : S.Aligned s t)
    (hnear : S.Near M s.scanner.cursor t.scanner.cursor) (hw : Seamless w)
    (hl : leads w s.scanner.cursor.rest = true)
    (hf : ((s.scanner.advanceBy w.length).skip false).fault = none) :
    S.Aligned { s with scanner := (s.scanner.advanceBy w.length).skip false }
      { t with scanner := (t.scanner.advanceBy w.length).skip false } :=
  ht.skip hnear hw.length_pos (length_of_leads hnear hw hl) hf

/-- A run that is in front of the seam behind a word was so before it. -/
theorem Live.of_skip {keep : Bool} (hw : Seamless w) (hl : leads w s.scanner.cursor.rest = true)
    (h : S.Live { s with scanner := (s.scanner.advanceBy w.length).skip keep }) : S.Live s := by
  have hsuffix := Scanner.rest_skip_suffix keep (s.scanner.advanceBy w.length)
  rw [Scanner.advanceBy, Cursor.rest_advanceBy] at hsuffix
  refine ⟨h.1.of_suffix hw.length_pos hsuffix ?_,
    Scanner.fault_of_skip (s := s.scanner.advanceBy w.length) h.clean⟩
  rw [hw.head?_of_leads hl]
  exact hw.2.1

/-- A run that finds a plain word is in front of the seam. -/
theorem Regular.live_of_leads {keep : Bool} (hs : S.Regular s) (hw : Plain w)
    (hl : leads w s.scanner.cursor.rest = true)
    (hf : ((s.scanner.advanceBy w.length).skip keep).fault = none) : S.Live s :=
  ⟨hs.allows.ahead (hw.not_doubtful_of_leads hl),
    Scanner.fault_of_skip (s := s.scanner.advanceBy w.length) hf⟩

theorem accept_inside (hw : Seamless w) : S.Inside (· = ·) (accept w) (accept w) where
  back := by
    intro s b s' hs hrun
    rw [accept_run] at hrun
    split_ifs at hrun with hl <;> cases hrun
    · exact ⟨hs.skip _ false, ⟨true, rfl⟩, .of_skip hw hl⟩
    · exact ⟨hs, ⟨false, rfl⟩, id⟩
  step := by
    intro s b s' hrun hlive t ht
    rw [accept_run] at hrun ⊢
    split_ifs at hrun with hl <;> cases hrun
    · have hnear := ht.near (.of_skip hw hl hlive)
      rw [leads_eq hnear hw, if_pos hl]
      exact ⟨true, _, rfl, rfl, ht.skip_word hnear hw hl hlive.clean⟩
    · rw [leads_eq (ht.near hlive) hw, if_neg hl]
      exact ⟨false, t, rfl, rfl, ht⟩

/-- A mark behind which the text may end. -/
theorem accept_mark (hw : Plain w) (hm : w.head?.any isIdentStart = false) :
    S.Tracks Clean Clean (· = ·) (accept w) (accept w) where
  back := by
    intro s b s' hs hrun
    rw [accept_run] at hrun
    split_ifs at hrun with hl <;> cases hrun
    · exact ⟨hs.skip _ false, ⟨true, rfl⟩, fun h => (hs.live_of_leads hw hl h).clean⟩
    · exact ⟨hs, ⟨false, rfl⟩, id⟩
  step := by
    intro s b s' hrun hclean t ht
    obtain ⟨hnear, hlead⟩ := ht.mark hw hm
    rw [accept_run] at hrun ⊢
    rw [hlead]
    split_ifs at hrun ⊢ with hl <;> cases hrun
    · exact ⟨true, _, rfl, rfl, ht.skip_word (hnear hl) hw.1 hl hclean⟩
    · exact ⟨false, t, rfl, rfl, ht⟩

/-- The text may end behind the word, but not in its place. -/
theorem accept_cond (hw : Plain w) (h₁ : S.Tracks Clean Clean V p q) (h₂ : S.Finishes V p' q') :
    S.Finishes V (accept w >>= fun b => if b then p else p')
      (accept w >>= fun b => if b then q else q') where
  back := by
    intro s a s' hs hrun
    obtain ⟨b, s₁, hacc, hrun⟩ := run_bind_ok hrun
    rw [accept_run] at hacc
    split_ifs at hacc with hl <;> cases hacc
    · rw [if_pos rfl] at hrun
      obtain ⟨hs', ha, hclean⟩ := h₁.back (hs.skip _ false) hrun
      exact ⟨hs', ha, fun h => hs.live_of_leads hw hl (hclean h)⟩
    · rw [if_neg (by simp)] at hrun
      exact h₂.back hs hrun
  step := by
    intro s a s' hrun hclean t ht
    obtain ⟨b, s₁, hacc, hrun⟩ := run_bind_ok hrun
    rw [accept_run] at hacc
    have hacc' := accept_run w t
    split_ifs at hacc with hl <;> cases hacc
    · rw [if_pos rfl] at hrun
      have hs₁ := (h₁.back (ht.regular.skip _ false) hrun).2.2 hclean
      have hnear := ht.near (ht.regular.live_of_leads hw hl hs₁)
      rw [leads_eq hnear hw.1, if_pos hl] at hacc'
      rw [run_bind_of_ok hacc', if_pos rfl]
      exact h₁.step hrun hclean (ht.skip_word hnear hw.1 hl hs₁)
    · -- the run goes on without the word, so its text has not ended here and the other run misses
      -- the word too
      rw [if_neg (by simp)] at hrun
      have hlive := (h₂.back ht.regular hrun).2.2 hclean
      rw [leads_eq (ht.near hlive) hw.1, if_neg hl] at hacc'
      rw [run_bind_of_ok hacc', if_neg (by simp)]
      exact h₂.step hrun hclean ht

theorem expect_finishes (hw : Plain w) :
    S.Finishes (fun _ _ => True) (expect w) (expect w) where
  back := by
    intro s a s' hs hrun
    rw [expect_run] at hrun
    split_ifs at hrun with hl
    cases hrun
    exact ⟨hs.skip _ false, ⟨(), trivial⟩, hs.live_of_leads hw hl⟩
  step := by
    intro s a s' hrun hclean t ht
    rw [expect_run] at hrun ⊢
    split_ifs at hrun with hl
    cases hrun
    have hnear := ht.near (ht.regular.live_of_leads hw hl hclean)
    rw [leads_eq hnear hw.1, if_pos hl]
    exact ⟨(), _, rfl, trivial, ht.skip_word hnear hw.1 hl hclean⟩

theorem expect_inside (hw : Plain w) : S.Inside (fun _ _ => True) (expect w) (expect w) :=
  (expect_finishes hw).inside

theorem firstAccepted_inside {word : γ → Bytes} : ∀ {l : List γ}, (∀ a ∈ l, Seamless (word a)) →
    S.Inside (· = ·) (firstAccepted word l) (firstAccepted word l)
  | [], _ => Tracks.pure rfl
  | a :: l, hl =>
    (accept_inside (hl a (by simp))).cond (Tracks.pure rfl)
      (firstAccepted_inside fun c hc => hl c (by simp [hc]))

/-! ### Lexemes -/

theorem read_finishes {reader : Bytes → Reading α} (hl : Local reader) :
    S.Finishes (fun a b => a = b ∧ ∃ s n, reader s = ⟨n, .ok a⟩)
      (scan (Scanner.read reader (Scanner.skip false)))
      (scan (Scanner.read reader (Scanner.skip false))) where
  back := by
    intro s a s' hs hrun
    obtain ⟨n, hr, rfl⟩ := scan_read_ok hrun
    exact ⟨hs.skip n false, ⟨a, rfl, _, n, hr⟩, fun hclean =>
      ⟨hs.allows.ahead (hl.head hr), Scanner.fault_of_skip (s := s.scanner.advanceBy n) hclean⟩⟩
  step := by
    intro s a s' hrun hclean t ht
    obtain ⟨n, hr, rfl⟩ := scan_read_ok hrun
    have hnear := ht.meets.ahead (ht.regular.allows.ahead (hl.head hr))
    obtain ⟨q, -, hc, hd⟩ := hnear.rest
    have hread := hr
    rw [hc] at hread
    have hn := hl.within S.marks hread
    have hread' := hl.replace S.stops_old S.stops hn hread
    rw [← hd] at hread'
    have hle : S.old.length + n ≤ s.scanner.cursor.rest.length := by
      rw [hc, List.length_append]
      omega
    exact ⟨a, _, scan_read_run hread', ⟨rfl, _, n, hr⟩,
      ht.skip hnear (hl.takes hr).1 hle hclean⟩

theorem identifier_finishes :
    S.Finishes (fun a b => a = b ∧ isWord a = true) identifier identifier :=
  (read_finishes Lexeme.local_identifier).mono fun _ _ ⟨hab, _, _, hr⟩ =>
    ⟨hab, Lexeme.isWord_of_identifier hr⟩

theorem number_finishes : S.Finishes (· = ·) (scan (Scanner.readNumber false))
    (scan (Scanner.readNumber false)) :=
  (read_finishes Lexeme.local_number).mono fun _ _ h => h.1

theorem string_finishes : S.Finishes (· = ·) (scan (Scanner.readString false))
    (scan (Scanner.readString false)) :=
  (read_finishes Lexeme.local_string).mono fun _ _ h => h.1

/-- A character and the quote behind it. -/
def quotedCharacter : Parser UInt8 := do
  let code ← scan Scanner.readCharacter
  expect (ascii "'")
  return code

theorem quotedCharacter_ok {code : UInt8} (h : quotedCharacter.run s = .ok code s') :
    ∃ n, Lexeme.character s.scanner.cursor.rest = ⟨n, .ok code⟩ ∧
      leads (ascii "'") (s.scanner.cursor.rest.drop n) = true ∧
      s' = { s with scanner := ((s.scanner.advanceBy n).advanceBy 1).skip false } := by
  obtain ⟨c, s₁, hread, h⟩ := run_bind_ok h
  obtain ⟨n, hc, rfl⟩ := scan_read_ok hread
  obtain ⟨u, s₂, hexpect, h⟩ := run_bind_ok h
  cases h
  rw [expect_run] at hexpect
  split_ifs at hexpect with hl
  cases hexpect
  have hl : leads (ascii "'") (s.scanner.advanceBy n).cursor.rest = true := hl
  rw [Scanner.advanceBy, Cursor.rest_advanceBy] at hl
  exact ⟨n, hc, hl, rfl⟩

theorem quotedCharacter_run {n : Nat} {code : UInt8}
    (hc : Lexeme.character s.scanner.cursor.rest = ⟨n, .ok code⟩)
    (hl : leads (ascii "'") (s.scanner.cursor.rest.drop n) = true) :
    quotedCharacter.run s =
      .ok code { s with scanner := ((s.scanner.advanceBy n).advanceBy 1).skip false } := by
  have hread : (scan Scanner.readCharacter).run s =
      .ok code { s with scanner := s.scanner.advanceBy n } := scan_read_run hc
  have hexpect := expect_run (ascii "'") { s with scanner := s.scanner.advanceBy n }
  rw [if_pos (by rw [Scanner.advanceBy, Cursor.rest_advanceBy]; exact hl)] at hexpect
  rw [quotedCharacter, run_bind_of_ok hread, run_bind_of_ok hexpect]
  rfl

theorem Regular.quotedCharacter {code : UInt8} (hs : S.Regular s)
    (h : quotedCharacter.run s = .ok code s') : S.Regular s' ∧ (s'.Clean → s.Clean) := by
  obtain ⟨n, -, -, rfl⟩ := quotedCharacter_ok h
  refine ⟨⟨hs.grown, ?_⟩, Scanner.fault_of_skip (s := (s.scanner.advanceBy n).advanceBy 1)⟩
  rw [Cursor.text_skip, Scanner.advanceBy, Cursor.text_advanceBy, Scanner.advanceBy,
    Cursor.text_advanceBy]
  exact hs.allows

/-- Behind the opening quote the character and the closing quote are in front of the seam. -/
theorem quotedCharacter_step {code : UInt8} (h : quotedCharacter.run s = .ok code s')
    (hclean : s'.Clean) (hs : S.Regular s) (hnear : S.Before s.scanner.cursor.rest →
      S.Near M s.scanner.cursor t.scanner.cursor) (ht : t.Clean)
    (hv : t.vocabulary = s.vocabulary) :
    ∃ t', quotedCharacter.run t = .ok code t' ∧ S.Aligned s' t' := by
  have hregular := (hs.quotedCharacter h).1
  obtain ⟨n, hc, hl, rfl⟩ := quotedCharacter_ok h
  have hw : Plain (ascii "'") := by decide
  obtain ⟨h₀, hn⟩ := Lexeme.takes_character hc
  obtain ⟨q, hlt, hq⟩ := hs.allows.exists_front hn (hw.not_doubtful_of_leads hl)
  have hlength : s.scanner.cursor.rest.length = q.length + S.old.length := by
    rw [hq, List.length_append]
  have hbefore : S.Before s.scanner.cursor.rest := by
    refine ⟨⟨q, List.ne_nil_of_length_pos (by omega), hq⟩, fun hslash => ?_⟩
    rw [hslash, List.length_singleton] at hlength
    omega
  have hnear := hnear hbefore
  have hnext := hnear.advanceBy (n := n) (by omega)
  obtain ⟨q', -, hq', hd⟩ := hnear.rest
  obtain rfl : q' = q := List.append_cancel_right (hq'.symm.trans hq)
  have hcharacter : Lexeme.character t.scanner.cursor.rest = ⟨n, .ok code⟩ := by
    rw [hq] at hc
    rw [hd]
    exact Lexeme.character_replace S.stops_old S.stops hlt.le hc
  have hquote : leads (ascii "'") (t.scanner.cursor.rest.drop n) = true := by
    have hlead := leads_eq hnext hw.1
    rwa [Cursor.rest_advanceBy, Cursor.rest_advanceBy, hl] at hlead
  have hroom : S.old.length + 1 ≤ (s.scanner.advanceBy n).cursor.rest.length := by
    rw [Scanner.advanceBy, Cursor.rest_advanceBy, List.length_drop]
    omega
  obtain ⟨hmeets, hfault⟩ := S.skips (s := s.scanner.advanceBy n) (t := t.scanner.advanceBy n)
    hnext Nat.one_pos hroom ht hclean
  exact ⟨_, quotedCharacter_run hcharacter hquote, hmeets, hfault, hv, hregular⟩

theorem quotedCharacter_bind (k : UInt8 → Parser α) : quotedCharacter >>= k =
    scan Scanner.readCharacter >>= fun code => expect (ascii "'") >>= fun _ => k code := by
  simp only [quotedCharacter, bind_assoc, pure_bind]

/-- A character in quotes, if one starts at the cursor. What stands behind the opening quote belongs
to the literal, so that the run may be at any byte there; it counts as a whole. -/
theorem quoted_cond {k : UInt8 → Parser α} {k' : UInt8 → Parser β}
    (hk : ∀ code, S.Inside V (k code) (k' code)) (h : S.Inside V p q) :
    S.Inside V
      (acceptKeeping true (ascii "'") >>= fun b =>
        if b then scan Scanner.readCharacter >>= fun code => expect (ascii "'") >>= fun _ => k code
        else p)
      (acceptKeeping true (ascii "'") >>= fun b =>
        if b then scan Scanner.readCharacter >>= fun code => expect (ascii "'") >>= fun _ => k' code
        else q) where
  back := by
    intro s a s' hs hrun
    obtain ⟨b, s₁, hacc, hrun⟩ := run_bind_ok hrun
    rw [acceptKeeping_run] at hacc
    split_ifs at hacc with hl <;> cases hacc
    · rw [if_pos rfl, ← quotedCharacter_bind] at hrun
      obtain ⟨code, s₂, hquoted, hrun⟩ := run_bind_ok hrun
      obtain ⟨hs₂, hclean⟩ := (hs.skip (ascii "'").length true).quotedCharacter hquoted
      obtain ⟨hs', ha, hlive⟩ := (hk code).back hs₂ hrun
      exact ⟨hs', ha, fun h' => hs.live_of_leads (by decide) hl (hclean (hlive h').clean)⟩
    · rw [if_neg (by simp)] at hrun
      exact h.back hs hrun
  step := by
    intro s a s' hrun hlive t ht
    obtain ⟨b, s₁, hacc, hrun⟩ := run_bind_ok hrun
    rw [acceptKeeping_run] at hacc
    have hacc' := acceptKeeping_run true (ascii "'") t
    have hw : Plain (ascii "'") := by decide
    split_ifs at hacc with hl <;> cases hacc
    · rw [if_pos rfl, ← quotedCharacter_bind] at hrun
      obtain ⟨code, s₂, hquoted, hrun⟩ := run_bind_ok hrun
      have hs₁ := ht.regular.skip (ascii "'").length true
      obtain ⟨hs₂, hclean⟩ := hs₁.quotedCharacter hquoted
      have hlive₂ := ((hk code).back hs₂ hrun).2.2 hlive
      have hfault := hclean hlive₂.clean
      have hnear := ht.near (ht.regular.live_of_leads hw hl hfault)
      rw [leads_eq hnear hw.1, if_pos hl] at hacc'
      rw [run_bind_of_ok hacc', if_pos rfl, ← quotedCharacter_bind]
      obtain ⟨hnear₁, hfault₁⟩ :=
        S.keeps hnear hw.1.length_pos (length_of_leads hnear hw.1 hl) ht.clean hfault
      obtain ⟨t₂, hquoted', ht₂⟩ :=
        quotedCharacter_step (t := { t with scanner := (t.scanner.advanceBy _).skip true }) hquoted
          hlive₂.clean hs₁ hnear₁ hfault₁ ht.vocabulary
      rw [run_bind_of_ok hquoted']
      exact (hk code).step hrun hlive ht₂
    · rw [if_neg (by simp)] at hrun
      have hs := (h.back ht.regular hrun).2.2 hlive
      rw [leads_eq (ht.near hs) hw.1, if_neg hl] at hacc'
      rw [run_bind_of_ok hacc', if_neg (by simp)]
      exact h.step hrun hlive ht

/-! ### The vocabulary -/

theorem declareType_tracks {name : Bytes} (hn : isWord name = true)
    (hP : ∀ (s : ParserState) v, P { s with vocabulary := v } → P s) :
    S.Tracks P P (fun _ _ => True) (declareType name) (declareType name) where
  back := by
    intro s a s' hs hrun
    cases hrun
    exact ⟨⟨hs.grown.addType hn, hs.allows⟩, ⟨(), trivial⟩, hP s _⟩
  step := by
    intro s a s' hrun _ t ht
    cases hrun
    exact ⟨(), _, rfl, trivial, ht.meets, ht.clean, congrArg (·.addType name) ht.vocabulary,
      ht.regular.grown.addType hn, ht.regular.allows⟩

/-! ### Loops -/

theorem iterateWithin_inside {α' β' : Type} {U : α → α' → Prop} {V : β → β' → Prop}
    {step : α → Parser (α ⊕ β)} {step' : α' → Parser (α' ⊕ β')}
    (h : ∀ a a', U a a' → S.Inside (Sum.LiftRel U V) (step a) (step' a')) :
    ∀ (m n : Bytes) {a : α} {a' : α'}, m.length ≤ n.length → U a a' →
      S.Inside V (iterateWithin step m a) (iterateWithin step' n a')
  | [], _, _, _, _, _ => throw_tracks _
  | _ :: _, [], _, _, hmn, _ => by simp at hmn
  | _ :: m, _ :: n, a, a', hmn, ha => by
    rw [iterateWithin_cons, iterateWithin_cons]
    refine (h a a' ha).bind fun x y hxy => ?_
    cases hxy with
    | inl ha => exact iterateWithin_inside h m n (by simpa using hmn) ha
    | inr hb => exact Tracks.pure hb

/-- A loop goes in step if each of its rounds does; the longer text only allows more rounds. -/
theorem iterate_inside {α' β' : Type} {U : α → α' → Prop} {V : β → β' → Prop}
    {step : α → Parser (α ⊕ β)} {step' : α' → Parser (α' ⊕ β')}
    (h : ∀ a a', U a a' → S.Inside (Sum.LiftRel U V) (step a) (step' a')) {a : α} {a' : α'}
    (ha : U a a') : S.Inside V (iterate step a) (iterate step' a') :=
  budget_inside.bind fun m n hmn => iterateWithin_inside h m n hmn ha

end Scan.Seam

end MiniC
