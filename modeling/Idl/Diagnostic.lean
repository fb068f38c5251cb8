import Idl.Text.Lines
import Idl.Text.Padding
import Idl.Span

/-!
# Diagnostics

A message about a source is headed by the path of the source and the position
it speaks of.  The line at that position follows, indented, with a caret under
its column; there is none where the position stands behind the last line.  If
the caret stands further to the right than any padding reaches, the diagnostic
cannot be written.
-/

namespace Idl

/-- An indented line with a caret under one of its columns. -/
def snippet (line : String) (column : Nat) : String :=
  "\n  " ++ line ++ "\n  " ++ Text.blanks (column - 1) ++ "^"

/-- A message about the place where a span starts in a source. -/
def diagnostic (path source : String) (span : Span) (message : String) :
    String :=
  let position := span.position source
  path ++ ":" ++ position.text ++ ": error: " ++ message ++
    match (Text.lines source)[position.line - 1]? with
    | none => ""
    | some line => snippet line position.column

/-- The blanks in front of the caret, where a line is quoted. -/
def caretWidth? (source : String) (span : Span) : Option Nat :=
  let position := span.position source
  (Text.lines source)[position.line - 1]?.map fun _ => position.column - 1

/-- The diagnostic, if it can be written. -/
def diagnostic? (path source : String) (span : Span) (message : String) :
    Option String :=
  if (caretWidth? source span).all Text.fits then
    some (diagnostic path source span message)
  else
    none

end Idl
