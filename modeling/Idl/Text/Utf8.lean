/-!
# Bytes of a text, and texts from bytes

Offsets into a source count the bytes of its UTF-8 form, so a text has a view
as a list of bytes.  In the other direction every list of bytes is read as a
text: well-formed sequences give their characters, and what is not well formed
gives replacement characters, one for each maximal start of a sequence that
goes wrong.

The reader is a machine that takes one byte at a time.  Between characters its
state is `none`; inside one it remembers the number of the character so far,
how many continuation bytes are still due, and the interval the next of them
has to lie in.  The interval is narrower than `0x80 .. 0xBF` only after the
leading bytes that could start an overlong form, a surrogate or a number past
the last code point.
-/

namespace Idl.Text

def bytes (s : String) : List UInt8 :=
  s.toList.flatMap String.utf8EncodeChar

/-- The number of bytes that a run of characters takes in UTF-8. -/
def byteLength (cs : List Char) : Nat :=
  cs.foldr (fun c n => c.utf8Size + n) 0

theorem byteLength_cons (c : Char) (cs : List Char) :
    byteLength (c :: cs) = c.utf8Size + byteLength cs :=
  rfl

theorem byteLength_append (cs ds : List Char) :
    byteLength (cs ++ ds) = byteLength cs + byteLength ds := by
  induction cs with
  | nil => exact (Nat.zero_add _).symm
  | cons c cs ih =>
    rw [List.cons_append, byteLength_cons, byteLength_cons, ih, Nat.add_assoc]

/-- The character that stands for bytes that are not well formed. -/
def replacement : Char := '\ufffd'

/-- An unfinished character: the number collected so far, how many
continuation bytes are due after the next one, and the least and the greatest
value the next one may have. -/
structure Unfinished where
  value : Nat
  due : Nat
  low : UInt8
  high : UInt8
  deriving DecidableEq, Repr

/-- What a byte means where a character may start. -/
inductive Lead where
  | whole (c : Char)
  | opens (part : Unfinished)
  | stray
  deriving DecidableEq, Repr

def lead (b : UInt8) : Lead :=
  if b < 0x80 then .whole (Char.ofNat b.toNat)
  else if b < 0xC2 then .stray
  else if b < 0xE0 then .opens ⟨b.toNat % 32, 0, 0x80, 0xBF⟩
  else if b = 0xE0 then .opens ⟨0, 1, 0xA0, 0xBF⟩
  else if b = 0xED then .opens ⟨13, 1, 0x80, 0x9F⟩
  else if b < 0xF0 then .opens ⟨b.toNat % 16, 1, 0x80, 0xBF⟩
  else if b = 0xF0 then .opens ⟨0, 2, 0x90, 0xBF⟩
  else if b < 0xF4 then .opens ⟨b.toNat % 8, 2, 0x80, 0xBF⟩
  else if b = 0xF4 then .opens ⟨4, 2, 0x80, 0x8F⟩
  else .stray

/-- The number after a continuation byte, which carries six bits. -/
def Unfinished.extend (part : Unfinished) (b : UInt8) : Nat :=
  part.value * 64 + b.toNat % 64

/-- Reads a byte where a character may start, in front of the characters
`done`, which are kept in reverse. -/
def startChar (done : List Char) (b : UInt8) :
    List Char × Option Unfinished :=
  match lead b with
  | .whole c => (c :: done, none)
  | .opens part => (done, some part)
  | .stray => (replacement :: done, none)

/-- Reads one byte.  A byte that cannot continue an unfinished character ends
it as one replacement and is itself read as a start. -/
def readByte (done : List Char) (part : Option Unfinished) (b : UInt8) :
    List Char × Option Unfinished :=
  match part with
  | none => startChar done b
  | some part =>
    if part.low ≤ b && b ≤ part.high then
      match part.due with
      | 0 => (Char.ofNat (part.extend b) :: done, none)
      | due + 1 => (done, some ⟨part.extend b, due, 0x80, 0xBF⟩)
    else
      startChar (replacement :: done) b

/-- Reads the remaining bytes and returns all characters in order. -/
def decodeFrom (done : List Char) (part : Option Unfinished) :
    List UInt8 → List Char
  | [] =>
    match part with
    | none => done.reverse
    | some _ => (replacement :: done).reverse
  | b :: bs =>
    decodeFrom (readByte done part b).1 (readByte done part b).2 bs

def decode (bs : List UInt8) : String :=
  String.ofList (decodeFrom [] none bs)

end Idl.Text
