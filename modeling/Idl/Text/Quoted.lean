import Idl.Text.Visible

/-!
# Quoted text

A text is shown between double quotes.  Quotes and backslashes get a backslash
in front, four common controls have a letter of their own, and every other
character that is not visible is written as its code point in braces.  Each
character is written on its own, so the written form of a text is the
concatenation of the written forms of its characters.
-/

namespace Idl.Text

/-- The lower-case hexadecimal digits of a number, without leading zeros. -/
def hexDigits (n : Nat) : List Char :=
  Nat.toDigits 16 n

def escapeChar (c : Char) : List Char :=
  if c = '"' then ['\\', '"']
  else if c = '\\' then ['\\', '\\']
  else if c = '\n' then ['\\', 'n']
  else if c = '\r' then ['\\', 'r']
  else if c = '\t' then ['\\', 't']
  else if c = '\x00' then ['\\', '0']
  else if visible c then [c]
  else '\\' :: 'u' :: '\x7b' :: (hexDigits c.toNat ++ ['\x7d'])

def escape (cs : List Char) : List Char :=
  cs.flatMap escapeChar

/-- A text as it is shown between double quotes. -/
def quoted (s : String) : String :=
  String.ofList ('"' :: (escape s.toList ++ ['"']))

end Idl.Text
