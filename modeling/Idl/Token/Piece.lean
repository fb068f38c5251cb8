import Idl.Token

/-!
# Pieces of a source

A source is cut from left to right into pieces, each as long as it can be: runs
of blanks, comments up to the end of the line, words, literals, marks, and
single characters that start nothing.  Nothing is lost: the spellings of the
pieces, one after the other, are the source (`spelling_flatMap_pieces`).  A
literal whose closing quote is missing swallows the rest of the source.
-/

namespace Idl

inductive Piece where
  | blank (run : List Char)
  | comment (body : List Char)
  | word (letters : List Char)
  | literal (body : List Char)
  | openLiteral (body : List Char)
  | mark (kind : TokenKind)
  | stray (c : Char)
  deriving DecidableEq, Repr

/-- The characters of a source that a piece covers. -/
def Piece.spelling : Piece → List Char
  | blank run => run
  | comment body => '/' :: '/' :: body
  | word letters => letters
  | literal body => '"' :: (body ++ ['"'])
  | openLiteral body => '"' :: body
  | mark kind => kind.mark
  | stray c => [c]

/-! ## Character classes -/

/-- Blanks separate tokens and mean nothing else; the line feed is a mark. -/
def isBlank (c : Char) : Bool := c == ' ' || c == '\t' || c == '\r'

/-- Words are made of ASCII letters, ASCII digits and underscores. -/
def isWordChar (c : Char) : Bool := c.isAlphanum || c == '_'

/-- The marks of one character that do not start a longer one. -/
def singleMarks : List TokenKind :=
  [.endLine, .hash, .semicolon, .openBrace, .closeBrace, .openSquare,
   .closeSquare, .openRound, .closeRound, .equals, .comma, .less, .greater]

def markOf? (c : Char) : Option TokenKind :=
  singleMarks.find? fun kind => kind.mark == [c]

/-! ## Cutting -/

/-- Cuts behind a quote: up to the next quote, or to the end. -/
def cutLiteral (cs : List Char) : Piece × List Char :=
  match cs.dropWhile (· != '"') with
  | [] => (.openLiteral cs, [])
  | _ :: rest => (.literal (cs.takeWhile (· != '"')), rest)

/-- Cuts behind a slash: a second one makes a comment. -/
def cutSlash : List Char → Piece × List Char
  | '/' :: cs =>
    (.comment (cs.takeWhile (· != '\n')), cs.dropWhile (· != '\n'))
  | cs => (.stray '/', cs)

/-- Cuts behind a colon: a second one makes a namespace mark. -/
def cutColon : List Char → Piece × List Char
  | ':' :: cs => (.mark .namespaces, cs)
  | cs => (.mark .colon, cs)

/-- The first piece of a source that starts with `c`, and what follows it. -/
def cut (c : Char) (cs : List Char) : Piece × List Char :=
  if isBlank c then
    (.blank (c :: cs.takeWhile isBlank), cs.dropWhile isBlank)
  else if isWordChar c then
    (.word (c :: cs.takeWhile isWordChar), cs.dropWhile isWordChar)
  else if c = '"' then cutLiteral cs
  else if c = '/' then cutSlash cs
  else if c = ':' then cutColon cs
  else
    match markOf? c with
    | some kind => (.mark kind, cs)
    | none => (.stray c, cs)

theorem mark_of_markOf? {c : Char} {kind : TokenKind}
    (h : markOf? c = some kind) : kind.mark = [c] := by
  simpa using List.find?_some h

theorem spelling_cutLiteral (cs : List Char) :
    (cutLiteral cs).1.spelling ++ (cutLiteral cs).2 = '"' :: cs := by
  unfold cutLiteral
  have hsplit := List.takeWhile_append_dropWhile (p := (· != '"')) (l := cs)
  split
  · simp [Piece.spelling]
  · next c rest hdrop =>
    have hc : c = '"' := by
      have := List.head?_dropWhile_not (· != '"') cs
      simp_all
    subst hc
    rw [hdrop] at hsplit
    simp [Piece.spelling, hsplit]

theorem spelling_cutSlash (cs : List Char) :
    (cutSlash cs).1.spelling ++ (cutSlash cs).2 = '/' :: cs := by
  unfold cutSlash
  split <;> simp [Piece.spelling]

theorem spelling_cutColon (cs : List Char) :
    (cutColon cs).1.spelling ++ (cutColon cs).2 = ':' :: cs := by
  unfold cutColon
  split <;> simp [Piece.spelling, TokenKind.mark]

theorem spelling_cut (c : Char) (cs : List Char) :
    (cut c cs).1.spelling ++ (cut c cs).2 = c :: cs := by
  unfold cut
  split
  · simp [Piece.spelling]
  split
  · simp [Piece.spelling]
  split
  · next h => rw [h, spelling_cutLiteral]
  split
  · next h => rw [h, spelling_cutSlash]
  split
  · next h => rw [h, spelling_cutColon]
  split
  · next h => simp [Piece.spelling, mark_of_markOf? h]
  · simp [Piece.spelling]

/-- Every piece covers at least one character. -/
theorem spelling_cut_ne_nil (c : Char) (cs : List Char) :
    (cut c cs).1.spelling ≠ [] := by
  unfold cut
  split
  · simp [Piece.spelling]
  split
  · simp [Piece.spelling]
  split
  · unfold cutLiteral
    split <;> simp [Piece.spelling]
  split
  · unfold cutSlash
    split <;> simp [Piece.spelling]
  split
  · unfold cutColon
    split <;> simp [Piece.spelling, TokenKind.mark]
  split
  · next h => simp [Piece.spelling, mark_of_markOf? h]
  · simp [Piece.spelling]

theorem cut_length_lt (c : Char) (cs : List Char) :
    (cut c cs).2.length < (c :: cs).length := by
  have hlength := congrArg List.length (spelling_cut c cs)
  have hpos := List.length_pos_iff.mpr (spelling_cut_ne_nil c cs)
  rw [List.length_append] at hlength
  omega

/-- Cuts the remaining characters, `done` being the pieces so far in
reverse. -/
def piecesFrom (done : List Piece) : List Char → List Piece
  | [] => done.reverse
  | c :: cs => piecesFrom ((cut c cs).1 :: done) (cut c cs).2
termination_by cs => cs.length
decreasing_by exact cut_length_lt c cs

def pieces (cs : List Char) : List Piece := piecesFrom [] cs

theorem piecesFrom_eq (done : List Piece) (cs : List Char) :
    piecesFrom done cs = done.reverse ++ pieces cs := by
  unfold pieces
  induction hlength : cs.length using Nat.strongRecOn generalizing done cs with
  | ind n ih =>
    cases cs with
    | nil => simp [piecesFrom]
    | cons c cs =>
      have hlt := cut_length_lt c cs
      rw [hlength] at hlt
      rw [piecesFrom, piecesFrom, ih _ hlt _ _ rfl, ih _ hlt [_] _ rfl]
      simp

@[simp] theorem pieces_nil : pieces [] = [] := by
  simp [pieces, piecesFrom]

theorem pieces_cons (c : Char) (cs : List Char) :
    pieces (c :: cs) = (cut c cs).1 :: pieces (cut c cs).2 := by
  rw [pieces, piecesFrom, piecesFrom_eq]
  simp

/-- The pieces tile the source. -/
theorem spelling_flatMap_pieces (cs : List Char) :
    (pieces cs).flatMap Piece.spelling = cs := by
  induction hlength : cs.length using Nat.strongRecOn generalizing cs with
  | ind n ih =>
    cases cs with
    | nil => simp
    | cons c cs =>
      have hlt := cut_length_lt c cs
      rw [hlength] at hlt
      rw [pieces_cons, List.flatMap_cons, ih _ hlt _ rfl, spelling_cut]

end Idl
