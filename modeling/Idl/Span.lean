import Idl.Text.Utf8

/-!
# Spans and positions

A span names a stretch of a source by two byte offsets.  Nothing forces the
second to lie behind the first: hand-made tokens may carry any two numbers, and
then the span has no length.  Offsets stop at `maxOffset`; a range that reaches
further is cut there.

A position names a byte by its line and its column, both counted from one.
The column counts bytes, not characters.
-/

namespace Idl

/-- The greatest offset, line and column that are told apart. -/
def maxOffset : Nat := 4294967295

def clamp (n : Nat) : Nat := min n maxOffset

structure Span where
  start : Nat
  stop : Nat
  deriving DecidableEq, Repr, Inhabited

namespace Span

def point (offset : Nat) : Span := ⟨offset, offset⟩

/-- The span of a range of any size. -/
def ofRange (start stop : Nat) : Span := ⟨clamp start, clamp stop⟩

/-- The number of bytes in a span; there is none if it ends before it
starts. -/
def length? (s : Span) : Option Nat :=
  if s.start ≤ s.stop then some (s.stop - s.start) else none

def isEmpty (s : Span) : Bool := s.start == s.stop

def text (s : Span) : String :=
  s.start.repr ++ ".." ++ s.stop.repr

end Span

structure Position where
  line : Nat
  column : Nat
  deriving DecidableEq, Repr, Inhabited

namespace Position

def lineFeed : UInt8 := 10

/-- The position that follows the given bytes: one line for each line feed,
and one column for each byte behind the last of them. -/
def after (before : List UInt8) : Position where
  line := clamp (before.count lineFeed + 1)
  column := clamp ((before.reverse.takeWhile (· != lineFeed)).length + 1)

def text (p : Position) : String :=
  p.line.repr ++ ":" ++ p.column.repr

end Position

/-- Where a span starts in a source.  A start past the end of the source is
taken for the end. -/
def Span.position (s : Span) (source : String) : Position :=
  Position.after ((Text.bytes source).take s.start)

end Idl
