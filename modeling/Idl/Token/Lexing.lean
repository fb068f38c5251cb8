import Idl.Token.Piece

/-!
# Lexing

Words, literals and marks become tokens; blanks, comments and stray characters
disappear.  The span of a token is the stretch of bytes that its piece covers.
Only the last piece of a source can be at fault: a literal without its closing
quote, or a word that nothing separates from the end of the input.
-/

namespace Idl

inductive LexFault where
  | unclosedLiteral
  | unfinishedWord
  deriving DecidableEq, Repr

def LexFault.message : LexFault → String
  | unclosedLiteral => "unterminated string literal"
  | unfinishedWord => "unexpected end of input while scanning an identifier"

structure LexError where
  fault : LexFault
  span : Span
  deriving DecidableEq, Repr

def LexError.message (e : LexError) : String := e.fault.message

namespace Piece

/-- The stretch of bytes that a piece covers when it starts at an offset. -/
def spanAt (p : Piece) (offset : Nat) : Span :=
  Span.ofRange offset (offset + Text.byteLength p.spelling)

/-- The token that a piece stands for. -/
def token? (p : Piece) (span : Span) : Option Token :=
  match p with
  | word letters => some ⟨.identifier, String.ofList letters, span⟩
  | literal body => some ⟨.literal, String.ofList body, span⟩
  | mark kind => some ⟨kind, "", span⟩
  | blank _ | comment _ | openLiteral _ | stray _ => none

/-- What is wrong with a piece that the pieces `rest` follow. -/
def fault? (p : Piece) (rest : List Piece) : Option LexFault :=
  match p with
  | openLiteral _ => some .unclosedLiteral
  | word _ => if rest.isEmpty then some .unfinishedWord else none
  | _ => none

end Piece

/-- The tokens of the remaining pieces, which start at an offset, behind the
tokens `done`, which are kept in reverse. -/
def tokensFrom (done : List Token) (offset : Nat) :
    List Piece → Except LexError (List Token)
  | [] => .ok done.reverse
  | p :: ps =>
    match p.fault? ps with
    | some fault => .error ⟨fault, p.spanAt offset⟩
    | none =>
      tokensFrom ((p.token? (p.spanAt offset)).toList ++ done)
        (offset + Text.byteLength p.spelling) ps

def lex (source : String) : Except LexError (List Token) :=
  tokensFrom [] 0 (pieces source.toList)

def lexBytes (source : List UInt8) : Except LexError (List Token) :=
  lex (Text.decode source)

end Idl
