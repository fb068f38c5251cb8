/-!
# Lines of a text

A line ends with its line feed or with the text.  The line feed, and a
carriage return directly in front of it, do not belong to the line; a text
that ends in a line feed has no empty line after it.
-/

namespace Idl.Text

/-- Cuts a text behind every line feed, `part` being the start of the current
piece in reverse and `done` the finished pieces in reverse. -/
def splitFrom (done : List (List Char)) (part : List Char) :
    List Char → List (List Char)
  | [] =>
    match part with
    | [] => done.reverse
    | _ :: _ => (part.reverse :: done).reverse
  | c :: cs =>
    if c = '\n' then
      splitFrom ((c :: part).reverse :: done) [] cs
    else
      splitFrom done (c :: part) cs

/-- A piece without its line feed and the carriage return in front of it. -/
def dropLineEnd (piece : List Char) : List Char :=
  match piece.reverse with
  | '\n' :: '\r' :: rest => rest.reverse
  | '\n' :: rest => rest.reverse
  | _ => piece

def lines (s : String) : List String :=
  (splitFrom [] [] s.toList).map fun piece => String.ofList (dropLineEnd piece)

end Idl.Text
