import Idl.Proofs.Token.Cutting
import Idl.Token.Lexing

/-!
# Texts and their tokens, from a given offset on

Lexing goes from piece to piece, and each piece only moves the offset and may
give a token.  Blanks are taken in runs, but one blank less makes no difference
to the tokens behind it.
-/

namespace Idl.Grammar

/-- The text is lexed to these tokens when it starts at the given offset. -/
def Lexed (offset : Nat) (cs : List Char) (ts : List Token) : Prop :=
  tokensFrom [] offset (pieces cs) = .ok ts

/-- A word in front of the text ends there. -/
def Breaks : List Char → Prop
  | [] => False
  | c :: _ => isWordChar c = false

theorem tokensFrom_eq (done : List Token) (offset : Nat) (ps : List Piece) :
    tokensFrom done offset ps =
      (tokensFrom [] offset ps).map (done.reverse ++ ·) := by
  induction ps generalizing done offset with
  | nil => simp [tokensFrom, Except.map]
  | cons p ps ih =>
      rw [tokensFrom, tokensFrom]
      cases p.fault? ps with
      | some fault => rfl
      | none =>
          simp only
          rw [ih, ih (_ ++ [])]
          cases tokensFrom [] (offset + Text.byteLength p.spelling) ps with
          | error e => rfl
          | ok ts => simp [Except.map]

section
variable {cs rest : List Char} {p : Piece} {start : Nat} {ts : List Token}

/-- The first piece of a text, if nothing is wrong with it, gives its token. -/
theorem lexed_iff_of_pieces (hpieces : pieces cs = p :: pieces rest)
    (hfault : p.fault? (pieces rest) = none) :
    Lexed start cs ts ↔
      ∃ us, Lexed (start + Text.byteLength p.spelling) rest us ∧
        ts = (p.token? (p.spanAt start)).toList ++ us := by
  unfold Lexed
  rw [hpieces, tokensFrom, hfault]
  simp only [List.append_nil]
  rw [tokensFrom_eq]
  cases tokensFrom [] (start + Text.byteLength p.spelling) (pieces rest) with
  | error e => simp [Except.map]
  | ok us => cases p.token? (p.spanAt start) <;> simp [Except.map, eq_comm]

theorem utf8Size_of_isBlank {c : Char} (h : isBlank c = true) :
    c.utf8Size = 1 := by
  simp only [isBlank, Bool.or_eq_true, beq_iff_eq] at h
  rcases h with (rfl | rfl) | rfl <;> rfl

theorem lexed_blank {c : Char} (hc : isBlank c = true) :
    Lexed start (c :: cs) ts ↔ Lexed (start + 1) cs ts := by
  have hpieces : ∀ {d cs}, isBlank d = true → pieces (d :: cs) =
      .blank (d :: cs.takeWhile isBlank) :: pieces (cs.dropWhile isBlank) := by
    intro d cs hd
    rw [pieces_cons, cut, if_pos hd]
  have hlength : ∀ run : List Char,
      start + Text.byteLength (Piece.blank (c :: run)).spelling =
        start + 1 + Text.byteLength run := by
    intro run
    rw [Piece.spelling, Text.byteLength_cons, utf8Size_of_isBlank hc,
      Nat.add_assoc]
  rw [lexed_iff_of_pieces (hpieces hc) rfl, hlength]
  cases cs with
  | nil =>
      simp [Piece.token?, Text.byteLength]
  | cons d cs =>
      by_cases hd : isBlank d = true
      · rw [List.takeWhile_cons_of_pos hd, List.dropWhile_cons_of_pos hd,
          lexed_iff_of_pieces (hpieces hd) rfl]
        rfl
      · rw [List.takeWhile_cons_of_neg hd, List.dropWhile_cons_of_neg hd]
        simp [Piece.token?, Text.byteLength]

theorem Breaks.notAhead (h : Breaks rest) : NotAhead isWordChar rest := by
  cases rest with
  | nil => exact h.elim
  | cons d rest =>
      have hd : isWordChar d = false := h
      simpa [NotAhead] using hd

theorem fault?_word (w : List Char) (hrest : Breaks rest) :
    (Piece.word w).fault? (pieces rest) = none := by
  cases rest with
  | nil => exact hrest.elim
  | cons c rest => simp [Piece.fault?, pieces_cons]

end

end Idl.Grammar
