import MiniC.Command.Run
import MiniC.Text.Utf8
import Std.Time

/-!
# The program

The command on the machine's files, streams and clock.
-/

namespace MiniC.Command

/-- The text of a path for the machine. -/
def pathString (path : Bytes) : String :=
  String.ofList ((Utf8.pieces path).map fun
    | .char c => c
    | .stray _ => '\ufffd')

/-- The machine's words for an error. -/
def errorDetails : IO.Error → String
  | .noFileOrDirectory _ _ details => details
  | .inappropriateType _ _ details => details
  | .permissionDenied _ _ details => details
  | .invalidArgument _ _ details => details
  | e => toString e

/-- The fault that the machine names. -/
def faultOf (e : IO.Error) : FileFault :=
  let text := Utf8.ofString (errorDetails e).decapitalize
  ([FileFault.missing, .isDirectory, .notDirectory, .nameTooLong, .invalidPath].find?
    fun fault => fault.text = text).getD (.other text)

/-- The machine's clock. -/
def machineClock : IO Clock := do
  let t ← Std.Time.PlainDateTime.now
  return ⟨t.year.toInt.toNat, t.month.val.toNat, t.day.val.toNat, t.hour.val.toNat,
    t.minute.val.toNat, t.second.val.toNat⟩

/-- The machine as a host. -/
def machine : Host IO where
  read path := do
    try
      let data ← IO.FS.readBinFile (pathString path)
      return .ok data.toList
    catch e =>
      let fault := faultOf e
      return .error ⟨if fault = .isDirectory then .reading else .opening, path, fault⟩
  write path data := do
    try
      IO.FS.writeBinFile (pathString path) (ByteArray.mk data.toArray)
      return .ok ()
    catch e => return .error ⟨.opening, path, faultOf e⟩
  print text := do (← IO.getStdout).write (ByteArray.mk text.toArray)
  report text := do (← IO.getStderr).write (ByteArray.mk text.toArray)
  now := machineClock

end MiniC.Command

def main (arguments : List String) : IO UInt32 := do
  let outcome ← MiniC.Command.run MiniC.Command.machine (arguments.map MiniC.Utf8.ofString)
  return outcome.status.toUInt32
