import MiniC.Proofs.Macro.Expansion

/-!
# When expansion fails

A `Path` is a sequence of macros, the first one named in a text and each further one in the
replacement text of the one before. `expandLine_ok_iff`: a line has an expansion exactly if it can
be cut into tokens, so can the replacement text of every macro on a path, and no path is longer than
`maxDepth`. If all texts can be cut, a failure is one of nesting.

Expansion keeps account of the active macros and of the levels left, so what it needs is first
stated for both: `exists_expandText_iff`. The condition on active macros is then seen to follow from
the one on lengths, because a path that meets a macro twice can be made as long as one likes
(`Path.nodup_of_bounded`).
-/

namespace MiniC.Macro

/-- The text can be cut into tokens. -/
def Lexes (line : Bytes) : Prop := ∃ tokens, Token.ofLine line = .ok tokens

/-- An identifier among the tokens of the text is the name. -/
def Mentions (line name : Bytes) : Prop :=
  ∃ token ∈ (Token.scan line).1, token.kind = .identifier ∧ token.text = name

/-- The replacement text of the macro, if there is one of this name, can be cut into tokens. -/
def Table.Lexes (t : Table) (place : Position) (name : Bytes) : Prop :=
  ∀ r, t.lookup? name = some r → Macro.Lexes (t.text place r)

/-- Names of macros, the first one mentioned in the text and each further one in the replacement
text of the one before. -/
inductive Path (t : Table) (place : Position) : Bytes → List Bytes → Prop
  | nil {line : Bytes} : Path t place line []
  | cons {line name : Bytes} {r : Replacement} {names : List Bytes} : Mentions line name →
      t.lookup? name = some r → Path t place (t.text place r) names →
      Path t place line (name :: names)

/-- The failures of nesting: a macro inside its own expansion, or too many levels. -/
def Cause.IsNesting : Cause → Prop
  | .selfExpansion _ | .tooDeep => True
  | .unsupported _ | .token _ | .badName _ => False

variable {t : Table} {place : Position}

/-! ### Tokens that name macros -/

theorem scan_of_ofLine {line : Bytes} {tokens : List Token} (h : Token.ofLine line = .ok tokens) :
    (Token.scan line).1 = tokens := by
  unfold Token.ofLine at h
  split at h
  · next found hscan =>
    cases h
    rw [hscan]
  · cases h

/-- A macro is mentioned if one of the tokens stands for it. -/
theorem mentions_iff {line : Bytes} {tokens : List Token} (h : Token.ofLine line = .ok tokens)
    {name : Bytes} {r : Replacement} (hr : t.lookup? name = some r) :
    Mentions line name ↔
      ∃ token ∈ tokens, token.text = name ∧ token.replacement? t = some r := by
  unfold Mentions
  rw [scan_of_ofLine h]
  constructor
  · rintro ⟨token, hmem, hkind, rfl⟩
    exact ⟨token, hmem, rfl, Token.replacement?_eq_some.2 ⟨hkind, hr⟩⟩
  · rintro ⟨token, hmem, hname, hrep⟩
    exact ⟨token, hmem, (Token.replacement?_eq_some.1 hrep).1, hname⟩

/-- A token that stands for a macro starts a path. -/
theorem path_cons_of_mem {line : Bytes} {tokens : List Token} (h : Token.ofLine line = .ok tokens)
    {token : Token} (hmem : token ∈ tokens) {r : Replacement} (hr : token.replacement? t = some r)
    {names : List Bytes} (hp : Path t place (t.text place r) names) :
    Path t place line (token.text :: names) := by
  have hl := (Token.replacement?_eq_some.1 hr).2
  exact .cons ((mentions_iff h hl).2 ⟨token, hmem, rfl, hr⟩) hl hp

/-! ### Success -/

/-- What the expansion of a text needs of a path from it, inside the `active` macros and with
`levels` more. -/
structure Path.Fits (t : Table) (place : Position) (levels : Nat) (active names : List Bytes) :
    Prop where
  length_le : names.length ≤ levels
  nodup : names.Nodup
  disjoint : ∀ name ∈ names, name ∉ active
  lexes : ∀ name ∈ names, t.Lexes place name

theorem Path.Fits.cons {levels : Nat} {active names : List Bytes} {name : Bytes}
    (h : Path.Fits t place levels (name :: active) names) (ha : name ∉ active)
    (hl : t.Lexes place name) : Path.Fits t place (levels + 1) active (name :: names) where
  length_le := Nat.succ_le_succ h.length_le
  nodup := List.nodup_cons.2 ⟨fun hmem => h.disjoint name hmem List.mem_cons_self, h.nodup⟩
  disjoint := by
    rintro n (_ | ⟨_, hn⟩)
    · exact ha
    · exact fun hmem => h.disjoint n hn (List.mem_cons_of_mem name hmem)
  lexes := by
    rintro n (_ | ⟨_, hn⟩)
    · exact hl
    · exact h.lexes n hn

theorem Path.Fits.tail {levels : Nat} {active names : List Bytes} {name : Bytes}
    (h : Path.Fits t place (levels + 1) active (name :: names)) :
    Path.Fits t place levels (name :: active) names where
  length_le := Nat.le_of_succ_le_succ h.length_le
  nodup := (List.nodup_cons.1 h.nodup).2
  disjoint := by
    intro n hn hmem
    rcases List.mem_cons.1 hmem with rfl | hmem
    · exact (List.nodup_cons.1 h.nodup).1 hn
    · exact h.disjoint n (List.mem_cons_of_mem name hn) hmem
  lexes n hn := h.lexes n (List.mem_cons_of_mem name hn)

/-- **A text has an expansion exactly if all paths from it fit.** -/
theorem exists_expandText_iff (levels : Nat) : ∀ (active : List Bytes) (line : Bytes),
    (∃ out, expandText t place levels active line = .ok out) ↔
      Lexes line ∧ ∀ names, Path t place line names → Path.Fits t place levels active names := by
  -- the levels go down from a text to the replacement texts in it
  induction levels using Nat.strongRecOn with
  | ind levels ih =>
    intro active line
    constructor
    · rintro ⟨out, h⟩
      obtain ⟨tokens, hline, hall⟩ := expandText_ok.1 h
      refine ⟨⟨tokens, hline⟩, fun names hp => ?_⟩
      cases hp with
      | nil => exact ⟨Nat.zero_le _, List.nodup_nil, by simp, by simp⟩
      | cons hm hr hp =>
        obtain ⟨token, hmem, rfl, hrep⟩ := (mentions_iff hline hr).1 hm
        obtain ⟨o, ho⟩ := exists_expandAll_iff.1 ⟨out, hall⟩ token hmem
        obtain ⟨ha, fewer, rfl, htext⟩ := (expandToken_some_ok hrep).1 ho
        obtain ⟨hlex, hfits⟩ := (ih fewer (Nat.lt_succ_self fewer) _ _).1 ⟨o, htext⟩
        refine (hfits _ hp).cons ha fun r' hr' => ?_
        rw [hr, Option.some.injEq] at hr'
        exact hr' ▸ hlex
    · rintro ⟨⟨tokens, hline⟩, hpaths⟩
      rw [expandText_of_ok hline, exists_expandAll_iff]
      intro token hmem
      cases hrep : token.replacement? t with
      | none => exact ⟨[token], expandToken_of_none hrep⟩
      | some r =>
        have hone := hpaths _ (path_cons_of_mem hline hmem hrep .nil)
        have hlex := hone.lexes _ List.mem_cons_self r (Token.replacement?_eq_some.1 hrep).2
        obtain ⟨fewer, rfl⟩ : ∃ fewer, levels = fewer + 1 :=
          Nat.exists_eq_add_one_of_ne_zero (Nat.ne_of_gt hone.length_le)
        obtain ⟨out, hout⟩ := (ih fewer (Nat.lt_succ_self fewer) (token.text :: active) _).2
          ⟨hlex, fun names hp => (hpaths _ (path_cons_of_mem hline hmem hrep hp)).tail⟩
        exact ⟨out, (expandToken_some_ok hrep).2
          ⟨hone.disjoint _ List.mem_cons_self, fewer, rfl, hout⟩⟩

/-! ### Cycles -/

/-- Paths are put together where the second one starts from the last macro of the first. -/
theorem Path.append {line name : Bytes} {r : Replacement} {front back : List Bytes}
    (h : Path t place line (front ++ [name])) (hr : t.lookup? name = some r)
    (hb : Path t place (t.text place r) back) : Path t place line (front ++ name :: back) := by
  induction front generalizing line with
  | nil =>
    cases h with
    | cons hm hr' _ =>
      exact .cons hm hr hb
  | cons n front ih =>
    cases h with
    | cons hm hr' hp => exact .cons hm hr' (ih hp)

/-- A path can be cut behind each of its macros. -/
theorem Path.split {line name : Bytes} {front back : List Bytes}
    (h : Path t place line (front ++ name :: back)) : ∃ r, t.lookup? name = some r ∧
      Path t place line (front ++ [name]) ∧ Path t place (t.text place r) back := by
  induction front generalizing line with
  | nil =>
    cases h with
    | cons hm hr hp => exact ⟨_, hr, .cons hm hr .nil, hp⟩
  | cons n front ih =>
    cases h with
    | cons hm hr hp =>
      obtain ⟨r, hr', hfront, hback⟩ := ih hp
      exact ⟨r, hr', .cons hm hr hfront, hback⟩

/-- From a macro that leads back to itself there are paths of any length. -/
theorem Path.exists_long {name : Bytes} {r : Replacement} {cycle : List Bytes}
    (hr : t.lookup? name = some r) (h : Path t place (t.text place r) (cycle ++ [name])) :
    ∀ n, ∃ names, Path t place (t.text place r) names ∧ n ≤ names.length
  | 0 => ⟨[], .nil, Nat.zero_le _⟩
  | n + 1 => by
    obtain ⟨names, hp, hn⟩ := Path.exists_long hr h n
    refine ⟨cycle ++ name :: names, h.append hr hp, ?_⟩
    rw [List.length_append, List.length_cons]
    omega

/-- **If paths are bounded, none meets a macro twice.** -/
theorem Path.nodup_of_bounded {line : Bytes} {names : List Bytes} (h : Path t place line names) :
    ∀ {bound : Nat}, (∀ names, Path t place line names → names.length ≤ bound) → names.Nodup := by
  induction h with
  | nil => exact fun _ => List.nodup_nil
  | @cons line name r names hm hr hp ih =>
    intro bound hb
    have hlt : ∀ names, Path t place (t.text place r) names → names.length < bound :=
      fun names' hp' => hb (name :: names') (.cons hm hr hp')
    refine List.nodup_cons.2 ⟨fun hmem => ?_, ih fun names' hp' => Nat.le_of_lt (hlt names' hp')⟩
    -- a second time closes a cycle
    obtain ⟨cycle, rest, rfl⟩ := List.append_of_mem hmem
    obtain ⟨_, -, hcycle, -⟩ := hp.split
    obtain ⟨long, hlong, hlength⟩ := Path.exists_long hr hcycle bound
    exact absurd (hlt long hlong) (Nat.not_lt.2 hlength)

/-! ### Failure -/

/-- A macro fails for its nesting or with a failure of its text. -/
theorem expandToken_some_error {levels : Nat} {active : List Bytes} {token : Token}
    {r : Replacement} {e : Error} (h : token.replacement? t = some r)
    (he : expandToken t place levels active token = .error e) :
    e.cause.IsNesting ∨ ∃ fewer, levels = fewer + 1 ∧
      expandText t place fewer (token.text :: active) (t.text place r) = .error e := by
  rw [expandToken_of_some h] at he
  split at he
  · cases he
    exact .inl trivial
  · cases levels with
    | zero =>
      cases he
      exact .inl trivial
    | succ fewer => exact .inr ⟨fewer, rfl, he⟩

/-- **If all texts can be cut into tokens, a failure is one of nesting.** -/
theorem isNesting_of_expandText (levels : Nat) : ∀ {active : List Bytes} {line : Bytes} {e : Error},
    Lexes line → (∀ names, Path t place line names → ∀ name ∈ names, t.Lexes place name) →
    expandText t place levels active line = .error e → e.cause.IsNesting := by
  induction levels using Nat.strongRecOn with
  | ind levels ih =>
    rintro active line e ⟨tokens, hline⟩ hlex he
    rw [expandText_of_ok hline] at he
    obtain ⟨token, hmem, htoken⟩ := exists_of_expandAll_error he
    cases hrep : token.replacement? t with
    | none =>
      rw [expandToken_of_none hrep] at htoken
      cases htoken
    | some r =>
      rcases expandToken_some_error hrep htoken with hnest | ⟨fewer, rfl, hinner⟩
      · exact hnest
      · have hone := hlex _ (path_cons_of_mem hline hmem hrep .nil) _ List.mem_cons_self r
          (Token.replacement?_eq_some.1 hrep).2
        refine ih fewer (Nat.lt_succ_self fewer) hone (fun names hp name hname => ?_) hinner
        exact hlex _ (path_cons_of_mem hline hmem hrep hp) name (List.mem_cons_of_mem _ hname)

/-- **A line has an expansion exactly if** it can be cut into tokens, the replacement text of every
macro on every path from it can be cut into tokens, and no path has more than 256 macros; then no
path meets a macro twice. If all these texts can be cut, the only failures are those of nesting. -/
theorem expandLine_ok_iff (t : Table) (place : Position) (line : Bytes) :
    ((∃ text, expandLine t place line = .ok text) ↔
      Lexes line ∧ (∀ names, Path t place line names → ∀ name ∈ names, t.Lexes place name) ∧
        ∀ names, Path t place line names → names.length ≤ 256) ∧
    ((∃ text, expandLine t place line = .ok text) →
      ∀ names, Path t place line names → names.Nodup) ∧
    (Lexes line → (∀ names, Path t place line names → ∀ name ∈ names, t.Lexes place name) →
      ∀ e, expandLine t place line = .error e → e.cause.IsNesting) := by
  have htext : (∃ text, expandLine t place line = .ok text) ↔
      ∃ out, expandText t place maxDepth [] line = .ok out := by
    rw [expandLine_eq_map]
    cases expandText t place maxDepth [] line <;> simp [Except.map]
  rw [htext, exists_expandText_iff]
  refine ⟨⟨?_, ?_⟩, ?_, ?_⟩
  · rintro ⟨hline, hfits⟩
    exact ⟨hline, fun names hp => (hfits names hp).lexes,
      fun names hp => (hfits names hp).length_le⟩
  · rintro ⟨hline, hlex, hlength⟩
    exact ⟨hline, fun names hp =>
      ⟨hlength names hp, hp.nodup_of_bounded hlength, by simp, hlex names hp⟩⟩
  · exact fun h names hp => (h.2 names hp).nodup
  · intro hline hlex e he
    rw [expandLine_eq_map] at he
    cases h : expandText t place maxDepth [] line with
    | ok out =>
      rw [h] at he
      cases he
    | error f =>
      rw [h] at he
      cases he
      exact isNesting_of_expandText maxDepth hline hlex h

end MiniC.Macro
