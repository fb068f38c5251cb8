import Idl.Command.Folder
import Idl.Command.Options
import Idl.Diagnostic
import Idl.Module.Listing
import Idl.Parse
import Idl.Token.Listing

/-!
# The outcome of a command

A command ends with an exit code and what it wrote to its two streams.  Code 2
is for arguments that make no sense, code 1 for a source that cannot be read or
has a fault, and code 0 for a listing.  Nothing is listed unless all went well.

Code 101 is for a command that is broken off, because something has to be padded
further than widths go: the caret under a fault, or a line of a module.  What
was written up to then stays, and what is said is up to the surroundings, which
report the reason.
-/

namespace Idl.Command

structure Outcome where
  exitCode : Nat
  stdout : String
  stderr : String
  deriving DecidableEq, Repr

def usage : String :=
  "Usage: idlc [--tokens] <file.idl>\n" ++
  "\n" ++
  "Options:\n" ++
  "  -t, --tokens    Print the token stream instead of the module tree\n" ++
  "\n" ++
  "Set RUST_LOG (e.g. RUST_LOG=idl_parse=trace) to trace lexing and parsing.\n"

/-- Why a command is broken off. -/
def outOfRange : String := "Formatting argument out of range"

/-- What is written of the listing of a source: of its tokens, or of its module
tree. -/
def listing (tokens : Bool) (source : String) : Except SourceError Output :=
  if tokens then
    match lex source with
    | .error e => .error (.lexical e)
    | .ok ts => .ok ⟨tokenListing ts, true⟩
  else
    match parseSource source with
    | .error e => .error e
    | .ok tree => .ok (ListingLine.writeAll tree.listing)

namespace Outcome

/-- Nothing on the first stream and a text on the second. -/
def failed (exitCode : Nat) (message : String) : Outcome :=
  ⟨exitCode, "", message⟩

def ofUsageError (e : UsageError) : Outcome :=
  failed 2 ("error: " ++ e.message ++ "\n\n" ++ usage)

def ofFileError (path : String) (e : FileError) : Outcome :=
  failed 1 ("error: cannot read '" ++ path ++ "': " ++ e.text ++ "\n")

def brokenOff (report : String → String) (written : String) : Outcome :=
  ⟨101, written, report outOfRange⟩

def ofSource (report : String → String) (options : Options)
    (source : String) : Outcome :=
  match listing options.tokens source with
  | .error e =>
    match diagnostic? options.path source e.span e.message with
    | none => brokenOff report ""
    | some text => failed 1 (text ++ "\n")
  | .ok written =>
    if written.whole then ⟨0, written.text, ""⟩
    else brokenOff report written.text

def ofContent (report : String → String) (options : Options)
    (content : Except FileError (List UInt8)) : Outcome :=
  match content with
  | .error e => ofFileError options.path e
  | .ok bytes => ofSource report options (Text.decode bytes)

end Outcome

/-- The outcome of a command in surroundings where `read` gives the files, and
`report` is what is said when a command is broken off for a reason. -/
def run (read : String → Except FileError (List UInt8))
    (report : String → String) (arguments : List String) : Outcome :=
  match Options.ofArguments arguments with
  | .error e => .ofUsageError e
  | .ok options => .ofContent report options (read options.path)

end Idl.Command
