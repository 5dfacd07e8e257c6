import MiniC.Macro.Expansion

/-!
# An expander that is kept

An expander stays in use from line to line while its table changes. During an expansion it notes
which macros are being expanded and how deep they are nested, and it takes each note back at the
end, also when the expansion fails on the way. A step of its history defines or removes a macro, or
expands a line.
-/

namespace MiniC.Macro

/-- A table, the macros that are being expanded, and their number. -/
structure Expander where
  table : Table
  active : List Bytes
  depth : Int

/-- Work of an expander. What it noted is there after a failure, too. -/
abbrev Expanding := EStateM Error Expander

namespace Expander

/-- An expander over a table that has done nothing yet. -/
def new (t : Table) : Expander := ⟨t, [], 0⟩

/-- Notes that a macro is being expanded. -/
def enter (name : Bytes) (e : Expander) : Expander :=
  { e with active := e.active.insert name, depth := e.depth + 1 }

/-- Takes the note back. -/
def leave (name : Bytes) (e : Expander) : Expander :=
  { e with active := e.active.filter (· != name), depth := e.depth - 1 }

/-- Expands one token, with `expandMacro` if it names a macro. -/
def expandOne (expandMacro : Token → Replacement → Expanding (List Token)) (token : Token) :
    Expanding (List Token) := do
  match token.kind, (← get).table.lookup? token.text with
  | .identifier, some replacement => expandMacro token replacement
  | _, _ => return [token]

/-- Expands the tokens in order. -/
def expandEach (expandMacro : Token → Replacement → Expanding (List Token)) :
    List Token → Expanding (List Token)
  | [] => return []
  | token :: rest => do
    let front ← expandOne expandMacro token
    return front ++ (← expandEach expandMacro rest)

/-- Expands the macro that a token names. How deep it is nested is told by the expander; `levels`
is a bound for the recursion, which is not reached. -/
def expandMacro (place : Position) : (levels : Nat) → Token → Replacement → Expanding (List Token)
  | 0, token, _ => throw ⟨place, token.column, .tooDeep⟩
  | levels + 1, token, replacement => do
    let e ← get
    if e.active.contains token.text then
      throw ⟨place, token.column, .selfExpansion token.text⟩
    else if maxDepth ≤ e.depth then throw ⟨place, token.column, .tooDeep⟩
    else if e.table.text place replacement = [] then return []
    else
      let tokens ← MonadExcept.ofExcept (tokensAt place (e.table.text place replacement))
      modify (enter token.text)
      try expandEach (expandMacro place levels) tokens
      finally modify (leave token.text)

/-- The text of a line after expansion. -/
def expandLine (place : Position) (line : Bytes) : Expanding Bytes := do
  let tokens ← MonadExcept.ofExcept (tokensAt place line)
  return Token.join (← expandEach (expandMacro place (maxDepth + 1)) tokens)

/-! ### Histories -/

/-- What can be done with an expander and its table. -/
inductive Step where
  | define (name value : Bytes)
  | undefine (name : Bytes)
  /-- A definition by the arguments of a directive. -/
  | directive (arguments : Bytes) (place : Position)
  | expand (line : Bytes) (place : Position)

/-- Does a step; a line that is expanded gives a text. -/
def perform : Step → Expanding (Option Bytes)
  | .define name value => do
    modify fun e => { e with table := e.table.define name value }
    return none
  | .undefine name => do
    modify fun e => { e with table := e.table.undefine name }
    return none
  | .directive arguments place => do
    match (← get).table.defineFrom arguments with
    | .ok t =>
      modify fun e => { e with table := t }
      return none
    | .error name => throw ⟨place, 0, .badName name⟩
  | .expand line place => do return some (← expandLine place line)

end Expander

end MiniC.Macro
