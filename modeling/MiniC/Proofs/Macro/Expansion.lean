import MiniC.Macro.Expansion

/-!
# What expansion does to tokens

A token that names no macro stays, one that names a macro is replaced by the expansion of the
macro's text (`expandText`): `expandToken_of_none`, `expandToken_of_some`. A list of tokens has an
expansion if each of them has one, and fails with the failure of one of them
(`exists_expandAll_iff`, `exists_of_expandAll_error`).

`Expansion t place tokens out` says the same of a successful expansion without the bounds on
nesting: it is what later proofs do induction on (`expansion_of_expandTokens`).
-/

namespace MiniC.Macro

/-! ### Lists of tokens -/

section Lists
variable {expand : Token → Except Error (List Token)} {token : Token} {tokens out : List Token}
  {e : Error}

theorem expandAll_cons : expandAll expand (token :: tokens) = do
    let front ← expand token
    let back ← expandAll expand tokens
    return front ++ back := by
  simp only [expandAll, List.mapM_cons]
  cases expand token with
  | error e => rfl
  | ok front => cases List.mapM expand tokens <;> rfl

theorem expandAll_cons_ok : expandAll expand (token :: tokens) = .ok out ↔
    ∃ front back, expand token = .ok front ∧ expandAll expand tokens = .ok back ∧
      out = front ++ back := by
  rw [expandAll_cons]
  cases expand token with
  | error e => simp [bind, Except.bind]
  | ok front =>
    cases expandAll expand tokens with
    | error e => simp [bind, Except.bind]
    | ok back => simp [bind, Except.bind, pure, Except.pure, eq_comm]

theorem exists_expandAll_iff : (∃ out, expandAll expand tokens = .ok out) ↔
    ∀ token ∈ tokens, ∃ out, expand token = .ok out := by
  induction tokens with
  | nil => exact ⟨fun _ => by simp, fun _ => ⟨[], rfl⟩⟩
  | cons token tokens ih =>
    rw [List.forall_mem_cons, ← ih]
    constructor
    · rintro ⟨out, h⟩
      obtain ⟨front, back, hfront, hback, -⟩ := expandAll_cons_ok.1 h
      exact ⟨⟨front, hfront⟩, back, hback⟩
    · rintro ⟨⟨front, hfront⟩, back, hback⟩
      exact ⟨front ++ back, expandAll_cons_ok.2 ⟨front, back, hfront, hback, rfl⟩⟩

theorem exists_of_expandAll_error (h : expandAll expand tokens = .error e) :
    ∃ token ∈ tokens, expand token = .error e := by
  induction tokens with
  | nil => cases h
  | cons token tokens ih =>
    rw [expandAll_cons] at h
    cases htoken : expand token with
    | error f =>
      rw [htoken] at h
      cases h
      exact ⟨token, List.mem_cons_self, htoken⟩
    | ok front =>
      rw [htoken] at h
      cases hrest : expandAll expand tokens with
      | error f =>
        rw [hrest] at h
        cases h
        obtain ⟨u, hu, he⟩ := ih hrest
        exact ⟨u, List.mem_cons_of_mem token hu, he⟩
      | ok back =>
        rw [hrest] at h
        cases h

end Lists

/-! ### One token -/

/-- What the macro stands for that a token names. -/
def Token.replacement? (t : Table) (token : Token) : Option Replacement :=
  if token.kind = .identifier then t.lookup? token.text else none

theorem Token.replacement?_eq_some {t : Table} {token : Token} {r : Replacement} :
    token.replacement? t = some r ↔ token.kind = .identifier ∧ t.lookup? token.text = some r := by
  unfold Token.replacement?
  split <;> simp [*]

/-- The expansion of a text inside the expansions of the `active` macros; `levels` more may be
nested. -/
def expandText (t : Table) (place : Position) (levels : Nat) (active : List Bytes) (line : Bytes) :
    Except Error (List Token) := do
  expandAll (expandToken t place levels active) (← tokensAt place line)

section Token
variable {t : Table} {place : Position} {levels : Nat} {active : List Bytes} {token : Token}
  {r : Replacement}

theorem expandToken_of_none (h : token.replacement? t = none) :
    expandToken t place levels active token = .ok [token] := by
  unfold Token.replacement? at h
  rw [expandToken.eq_def]
  split at h
  · next hk => simp [hk, h]
  · next hk => simp [hk]

theorem expandToken_of_some (h : token.replacement? t = some r) :
    expandToken t place levels active token =
      if token.text ∈ active then .error ⟨place, token.column, .selfExpansion token.text⟩
      else
        match levels with
        | 0 => .error ⟨place, token.column, .tooDeep⟩
        | levels + 1 =>
          expandText t place levels (token.text :: active) (t.text place r) := by
  obtain ⟨hk, hl⟩ := Token.replacement?_eq_some.1 h
  rw [expandToken.eq_def]
  simp only [hk, hl, if_true, List.contains_iff_mem]
  rfl

/-- A macro is expanded if it is not active and may be nested one level deeper. -/
theorem expandToken_some_ok {out : List Token} (h : token.replacement? t = some r) :
    expandToken t place levels active token = .ok out ↔ token.text ∉ active ∧ ∃ fewer,
      levels = fewer + 1 ∧
        expandText t place fewer (token.text :: active) (t.text place r) = .ok out := by
  rw [expandToken_of_some h]
  by_cases ha : token.text ∈ active
  · simp [ha]
  · cases levels with
    | zero => simp [ha]
    | succ fewer => simp [ha]

end Token

/-! ### Whole texts -/

section Text
variable {t : Table} {place : Position} {levels : Nat} {active : List Bytes} {line : Bytes}

theorem tokensAt_ok {tokens : List Token} :
    tokensAt place line = .ok tokens ↔ Token.ofLine line = .ok tokens := by
  unfold tokensAt
  split <;> simp [*]

theorem expandText_of_ok {tokens : List Token} (h : Token.ofLine line = .ok tokens) :
    expandText t place levels active line =
      expandAll (expandToken t place levels active) tokens := by
  rw [expandText, tokensAt_ok.2 h]
  rfl

theorem expandText_ok {out : List Token} : expandText t place levels active line = .ok out ↔
    ∃ tokens, Token.ofLine line = .ok tokens ∧
      expandAll (expandToken t place levels active) tokens = .ok out := by
  constructor
  · intro h
    cases htokens : tokensAt place line with
    | error e =>
      rw [expandText, htokens] at h
      cases h
    | ok tokens =>
      have hline := tokensAt_ok.1 htokens
      exact ⟨tokens, hline, by rwa [expandText_of_ok hline] at h⟩
  · rintro ⟨tokens, hline, h⟩
    rwa [expandText_of_ok hline]

theorem expandLine_eq_map :
    expandLine t place line = (expandText t place maxDepth [] line).map Token.join := by
  unfold expandLine expandText expandTokens
  cases tokensAt place line with
  | error e => rfl
  | ok tokens =>
    cases h : expandAll (expandToken t place maxDepth []) tokens with
    | error e => simp only [bind, Except.bind, h]; rfl
    | ok out => simp only [bind, Except.bind, h]; rfl

theorem expandLine_ok {text : Bytes} : expandLine t place line = .ok text ↔
    ∃ tokens out, Token.ofLine line = .ok tokens ∧ expandTokens t place tokens = .ok out ∧
      Token.join out = text := by
  rw [expandLine_eq_map]
  constructor
  · intro h
    cases hout : expandText t place maxDepth [] line with
    | error e =>
      rw [hout] at h
      cases h
    | ok out =>
      obtain ⟨tokens, hline, hall⟩ := expandText_ok.1 hout
      rw [hout] at h
      exact ⟨tokens, out, hline, hall, Except.ok.inj h⟩
  · rintro ⟨tokens, out, hline, hall, rfl⟩
    rw [expandText_ok.2 ⟨tokens, hline, hall⟩]
    rfl

end Text

/-! ### Expansion as a relation -/

/-- The tokens expand to `out`, however deep macros are nested. -/
inductive Expansion (t : Table) (place : Position) : List Token → List Token → Prop
  | nil : Expansion t place [] []
  /-- A token that names no macro stays. -/
  | keep {token : Token} {tokens out : List Token} : token.replacement? t = none →
      Expansion t place tokens out → Expansion t place (token :: tokens) (token :: out)
  /-- A token that names a macro gives way to the expansion of the macro's text. -/
  | replace {token : Token} {r : Replacement} {tokens inner front back : List Token} :
      token.replacement? t = some r → Token.ofLine (t.text place r) = .ok inner →
      Expansion t place inner front → Expansion t place tokens back →
      Expansion t place (token :: tokens) (front ++ back)

theorem expansion_of_expandAll {t : Table} {place : Position} : ∀ (levels : Nat)
    {active : List Bytes} {tokens out : List Token},
    expandAll (expandToken t place levels active) tokens = .ok out → Expansion t place tokens out
  | levels, active, [], out, h => by
    cases h
    exact .nil
  | levels, active, token :: tokens, out, h => by
    obtain ⟨front, back, hfront, hback, rfl⟩ := expandAll_cons_ok.1 h
    have hrest := expansion_of_expandAll levels hback
    cases hr : token.replacement? t with
    | none =>
      rw [expandToken_of_none hr] at hfront
      cases hfront
      exact .keep hr hrest
    | some r =>
      obtain ⟨-, fewer, rfl, htext⟩ := (expandToken_some_ok hr).1 hfront
      obtain ⟨inner, hinner, hall⟩ := expandText_ok.1 htext
      exact .replace hr hinner (expansion_of_expandAll fewer hall) hrest
  termination_by levels _ tokens => (levels, tokens.length)

theorem expansion_of_expandTokens {t : Table} {place : Position} {tokens out : List Token}
    (h : expandTokens t place tokens = .ok out) : Expansion t place tokens out :=
  expansion_of_expandAll maxDepth h

end MiniC.Macro
