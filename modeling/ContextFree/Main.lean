import ContextFree.CommandLine.Report

/-!
# The command

Reads the input named by the arguments, or standard input, and prints the report.
-/

namespace ContextFree.CommandLine

/-- The system's account of a failure to read. -/
def readFailure : IO.Error → ReadFailure
  | .noFileOrDirectory _ code details => .system details code.toNat
  | .inappropriateType _ code details => .system details code.toNat
  | .permissionDenied _ code details => .system details code.toNat
  | .invalidArgument _ code details => .system details code.toNat
  | .resourceExhausted _ code details => .system details code.toNat
  | .noSuchThing _ code details => .system details code.toNat
  | .otherError code details => .system details code.toNat
  | .hardwareFault code details => .system details code.toNat
  | e => .system (toString e) 0

/-- The text of a sequence of bytes, if it is UTF-8. -/
def decoded (bytes : ByteArray) : Except ReadFailure String :=
  match String.fromUTF8? bytes with
  | some text => .ok text
  | none => .error .notText

def readContent (o : Options) : IO (Except ReadFailure String) := do
  try
    match o.place with
    | .sample => return .ok ""
    | .standardInput => return decoded (← (← IO.getStdin).readBinToEnd)
    | .file path => return decoded (← (← IO.FS.Handle.mk path .read).readBinToEnd)
  catch e => return .error (readFailure e)

end ContextFree.CommandLine

open ContextFree.CommandLine in
def main (args : List String) : IO UInt32 := do
  let report ← match Options.parse args with
    | .error e => pure (usageReport e)
    | .ok o => pure (report o (← readContent o))
  (← IO.getStdout).putStr report.stdout
  (← IO.getStderr).putStr report.stderr
  return report.code.toUInt32
