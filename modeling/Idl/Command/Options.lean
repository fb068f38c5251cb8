/-!
# Command-line options

The arguments are scanned from left to right.  An argument that starts with a
hyphen is an option, any other is the path; the first argument that fits
neither decides the error.
-/

namespace Idl.Command

structure Options where
  path : String
  /-- List the tokens instead of the module tree. -/
  tokens : Bool
  deriving DecidableEq, Repr

inductive UsageError where
  | missingPath
  | unexpectedArgument (argument : String)
  | unknownOption (argument : String)
  deriving DecidableEq, Repr

def UsageError.message : UsageError → String
  | missingPath => "missing file path"
  | unexpectedArgument argument => "unexpected argument '" ++ argument ++ "'"
  | unknownOption argument => "unknown option '" ++ argument ++ "'"

def isTokenFlag (argument : String) : Bool :=
  argument == "-t" || argument == "--tokens"

def isOption (argument : String) : Bool :=
  argument.toList.head? == some '-'

/-- Scans the remaining arguments, given what the earlier ones said. -/
def scan (path : Option String) (tokens : Bool) :
    List String → Except UsageError Options
  | [] =>
    match path with
    | none => .error .missingPath
    | some path => .ok ⟨path, tokens⟩
  | argument :: rest =>
    if isTokenFlag argument then
      scan path true rest
    else if isOption argument then
      .error (.unknownOption argument)
    else
      match path with
      | none => scan (some argument) tokens rest
      | some _ => .error (.unexpectedArgument argument)

def Options.ofArguments (arguments : List String) :
    Except UsageError Options :=
  scan none false arguments

end Idl.Command
