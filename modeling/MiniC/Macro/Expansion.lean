import MiniC.Macro.Error
import MiniC.Macro.Table

/-!
# Macro expansion

Every identifier that names a macro is replaced by the tokens of the macro's text, which are
expanded in turn. A macro may not occur in its own expansion, and at most `maxDepth` macros may be
nested. A failure is reported at the column of the identifier or of the faulty token, counted
within the text where it stands.
-/

namespace MiniC.Macro

/-- The tokens of a line at a place of the source. -/
def tokensAt (place : Position) (line : Bytes) : Except Error (List Token) :=
  match Token.ofLine line with
  | .ok tokens => .ok tokens
  | .error (column, fault) => .error ⟨place, column, .token fault⟩

/-- Expands each token and puts the results together. -/
def expandAll (expand : Token → Except Error (List Token)) (tokens : List Token) :
    Except Error (List Token) := do
  return (← tokens.mapM expand).flatten

/-- The expansion of one token, inside the expansions of the `active` macros; `levels` more may
be nested. -/
def expandToken (t : Table) (place : Position) : (levels : Nat) → (active : List Bytes) → Token →
    Except Error (List Token)
  | levels, active, token =>
    if token.kind = .identifier then
      match t.lookup? token.text with
      | none => .ok [token]
      | some replacement =>
        if active.contains token.text then
          .error ⟨place, token.column, .selfExpansion token.text⟩
        else
          match levels with
          | 0 => .error ⟨place, token.column, .tooDeep⟩
          | levels + 1 => do
            let tokens ← tokensAt place (t.text place replacement)
            expandAll (expandToken t place levels (token.text :: active)) tokens
    else .ok [token]

/-- The expansion of the tokens of a line. -/
def expandTokens (t : Table) (place : Position) (tokens : List Token) :
    Except Error (List Token) :=
  expandAll (expandToken t place maxDepth []) tokens

/-- The text of a line after expansion. -/
def expandLine (t : Table) (place : Position) (line : Bytes) : Except Error Bytes := do
  let tokens ← tokensAt place line
  return Token.join (← expandTokens t place tokens)

end MiniC.Macro
