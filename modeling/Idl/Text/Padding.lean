/-!
# Padding

A text is moved to the right by blanks in front of it.  The number of blanks is
a width, and widths have sixteen bits: a text that needs a greater one cannot
be written.
-/

namespace Idl.Text

/-- The greatest width. -/
def maxWidth : Nat := 65535

/-- The number of blanks is a width. -/
def fits (count : Nat) : Bool := count ≤ maxWidth

def blanks (count : Nat) : String :=
  String.ofList (List.replicate count ' ')

end Idl.Text
