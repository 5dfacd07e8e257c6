import MiniC.Macro.Token
import MiniC.Source.Position
import MiniC.Text.Quoted

/-!
# Errors of preprocessing

An error has a place and a cause; the wording of all causes is in `Cause.message`.
-/

namespace MiniC.Macro

/-- Macros may be nested so deep in the expansion of a line. -/
def maxDepth : Nat := 256

/-- Why preprocessing fails. -/
inductive Cause where
  /-- A directive that is recognised but not supported, as it was written. -/
  | unsupported (directive : Bytes)
  /-- The line has no further token. -/
  | token (fault : TokenFault)
  /-- The expansion of a macro reaches the macro again. -/
  | selfExpansion (name : Bytes)
  /-- Macros are nested too deep. -/
  | tooDeep
  /-- A definition of something that is no identifier. -/
  | badName (name : Bytes)
  deriving DecidableEq, Repr

/-- A failure of preprocessing. The column is 0 if a whole directive is meant. -/
structure Error where
  position : Position
  column : Nat
  cause : Cause
  deriving DecidableEq, Repr

def TokenFault.message : TokenFault → Bytes
  | .unterminated kind => ascii "unexpected end of line inside " ++ kind.name ++ ascii " literal"
  | .unexpected b =>
    ascii "unexpected character " ++ Quoted.code b.toNat ++ ascii " (code " ++
      Bytes.ofNat b.toNat ++ ascii ")"

def Cause.message : Cause → Bytes
  | .unsupported directive => ascii "not yet implemented: " ++ directive
  | .token fault => fault.message
  | .selfExpansion name => ascii "macro " ++ name ++ ascii " expands to itself"
  | .tooDeep => ascii "macro expansion nested deeper than " ++ Bytes.ofNat maxDepth
  | .badName name => ascii "#define: invalid macro name " ++ Quoted.text name

/-- The error as one line. -/
def Error.message (e : Error) : Bytes := e.position.text ++ ascii ": " ++ e.cause.message

end MiniC.Macro
