import Idl.Command.Outcome

/-!
# The command

Reads the file that the arguments name, and writes the outcome.
-/

namespace Idl.Command

/-- The number of a system error, which may come as the negative of itself in
32 bits. -/
def errorNumber (code : UInt32) : Nat :=
  if code.toNat < UInt32.size / 2 then code.toNat
  else UInt32.size - code.toNat

/-- What the system said when a file could not be read. -/
def fileError : IO.Error → FileError
  | .noFileOrDirectory _ code reason
  | .inappropriateType _ code reason
  | .permissionDenied _ code reason
  | .invalidArgument _ code reason
  | .resourceExhausted _ code reason
  | .hardwareFault code reason
  | .otherError code reason => .ofCode (errorNumber code) reason
  | e => .ofCode 0 e.toString

def readFile (path : String) : IO (Except FileError (List UInt8)) := do
  try
    let content ← IO.FS.readBinFile path
    return .ok content.toList
  catch e =>
    return .error (fileError e)

def report (reason : String) : String := "broken off: " ++ reason ++ "\n"

def outcomeOf (arguments : List String) : IO Outcome := do
  match Options.ofArguments arguments with
  | .error e => return .ofUsageError e
  | .ok options =>
    return .ofContent report options (← readFile options.path)

end Idl.Command

def main (arguments : List String) : IO UInt32 := do
  let outcome ← Idl.Command.outcomeOf arguments
  (← IO.getStdout).putStr outcome.stdout
  (← IO.getStderr).putStr outcome.stderr
  return outcome.exitCode.toUInt32
