import Idl.Span
import Idl.Text.Quoted

/-!
# Tokens

A token has a kind, a text and a span.  The lexer gives a text to identifiers
and string literals only; hand-made tokens may carry a text on any kind.  The
kind `endOfInput` never comes out of the lexer: it is what a reader finds
behind the last token, and hand-made streams may also hold it in the middle.
-/

namespace Idl

inductive TokenKind where
  | identifier
  | hash
  | literal
  | colon
  | namespaces
  | semicolon
  | openBrace
  | closeBrace
  | openSquare
  | closeSquare
  | openRound
  | closeRound
  | equals
  | endLine
  | comma
  | less
  | greater
  | endOfInput
  deriving DecidableEq, Repr, Inhabited

namespace TokenKind

/-- The characters by which a mark is spelled.  Identifiers and literals are
spelled by their text, and the end of the input has no spelling. -/
def mark : TokenKind → List Char
  | hash => ['#']
  | colon => [':']
  | namespaces => [':', ':']
  | semicolon => [';']
  | openBrace => ['\x7b']
  | closeBrace => ['\x7d']
  | openSquare => ['[']
  | closeSquare => [']']
  | openRound => ['(']
  | closeRound => [')']
  | equals => ['=']
  | endLine => ['\n']
  | comma => [',']
  | less => ['<']
  | greater => ['>']
  | identifier | literal | endOfInput => []

/-- What a kind is called in messages. -/
def describe : TokenKind → String
  | identifier => "identifier"
  | literal => "string literal"
  | endLine => "end of line"
  | endOfInput => "end of input"
  | kind => "`" ++ String.ofList kind.mark ++ "`"

def label : TokenKind → String
  | identifier => "Identifier"
  | hash => "Hash"
  | literal => "StringLiteral"
  | colon => "Colon"
  | namespaces => "Namespace"
  | semicolon => "Semicolon"
  | openBrace => "OpenBrace"
  | closeBrace => "CloseBrace"
  | openSquare => "OpenSquareBracket"
  | closeSquare => "CloseSquareBracket"
  | openRound => "OpenBracket"
  | closeRound => "CloseBracket"
  | equals => "Equals"
  | endLine => "EndLine"
  | comma => "Comma"
  | less => "LessThan"
  | greater => "GreaterThan"
  | endOfInput => "Invalid"

end TokenKind

structure Token where
  kind : TokenKind
  text : String
  span : Span
  deriving DecidableEq, Repr, Inhabited

namespace Token

def isWord (t : Token) (word : String) : Bool :=
  t.kind == .identifier && t.text == word

/-- What a token is called in messages. -/
def describe (t : Token) : String :=
  match t.kind with
  | .identifier => "identifier `" ++ t.text ++ "`"
  | .literal => "string literal \"" ++ t.text ++ "\""
  | kind => kind.describe

def listing (t : Token) : String :=
  let place := " @ " ++ t.span.text
  if t.text = "" then
    t.kind.label ++ place
  else
    t.kind.label ++ "(" ++ Text.quoted t.text ++ ")" ++ place

end Token

end Idl
