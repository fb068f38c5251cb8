import Idl.Proofs.Token.Tiling

/-!
# Lexing line by line

Behind a line end lexing starts afresh.  No piece but a literal reaches across
a line end, and a literal that is closed has found its end, so a text that can
be lexed and ends with a line end is cut into the same pieces whatever follows
it (`pieces_append`).  The pieces that follow are lexed as they are on their
own, only at other offsets, and as long as no offset is cut at the greatest one
their spans and that of a fault move by the bytes in front of them.
-/

namespace Idl

open Grammar

/-! ## Moving spans -/

def Span.shift (s : Span) (distance : Nat) : Span :=
  ⟨s.start + distance, s.stop + distance⟩

def Token.shift (distance : Nat) (t : Token) : Token :=
  { t with span := t.span.shift distance }

def LexError.shift (distance : Nat) (e : LexError) : LexError :=
  { e with span := e.span.shift distance }

/-- The text is empty or its last character is a line feed. -/
def EndsLine (cs : List Char) : Prop :=
  cs = [] ∨ cs.getLast? = some '\n'

section
variable {q : Char → Bool} {p : Piece} {cs ds front rest : List Char}
  {ps qs : List Piece} {ts us : List Token} {offset distance : Nat}
  {span : Span}

/-! ## The seam -/

theorem EndsLine.behind (h : EndsLine (front ++ rest)) : EndsLine rest := by
  by_cases hrest : rest = []
  · exact .inl hrest
  · rcases h with hnil | hlast
    · exact .inl (List.append_eq_nil_iff.mp hnil).2
    · rw [List.getLast?_append, List.getLast?_eq_some_getLast hrest,
        Option.some_or] at hlast
      rw [← List.getLast?_eq_some_getLast hrest] at hlast
      exact .inr hlast

theorem EndsLine.mem_front (h : EndsLine (front ++ rest)) (hne : front ≠ [])
    (hrest : rest = []) : '\n' ∈ front := by
  subst hrest
  rw [List.append_nil] at h
  rcases h with hnil | hlast
  · exact absurd hnil hne
  · exact List.mem_of_getLast? hlast

theorem NotAhead.append (h : NotAhead q rest) (hne : rest ≠ []) :
    NotAhead q (rest ++ ds) := by
  cases rest with
  | nil => exact absurd rfl hne
  | cons c rest => exact h

/-- A piece in front of a text still fits when the text goes on, unless it is
the last one; then it has to be a literal or a line end. -/
theorem Piece.Fits.append (h : p.Fits rest)
    (hfault : p.fault? (pieces rest) = none)
    (hline : rest = [] → '\n' ∈ p.spelling) : p.Fits (rest ++ ds) := by
  cases h with
  | blank h hrest =>
      cases id h with
      | blank hne hrun =>
          have hlast : rest ≠ [] := fun hnil =>
            absurd (hrun _ (hline hnil)) (by decide)
          exact .blank h (hrest.append hlast)
  | @comment body _ h hrest =>
      cases id h with
      | comment hbody =>
          have hlast : rest ≠ [] := fun hnil =>
            hbody (by simpa [spelling] using hline hnil)
          exact .comment h (hrest.append hlast)
  | word h hrest =>
      cases id h with
      | word hne hletters =>
          have hlast : rest ≠ [] := fun hnil =>
            absurd (hletters _ (hline hnil)) (by decide)
          exact .word h (hrest.append hlast)
  | literal h => exact .literal h
  | openLiteral h => cases hfault
  | mark h hrest =>
      refine .mark h fun hcolon => ?_
      have hlast : rest ≠ [] := fun hnil => by
        have hmem := hline hnil
        rw [hcolon] at hmem
        exact absurd hmem (by decide)
      exact (hrest hcolon).append hlast
  | @stray c _ hc hblank hrest =>
      refine .stray hc hblank fun hslash => ?_
      have hlast : rest ≠ [] := fun hnil => by
        have hmem := hline hnil
        rw [hslash] at hmem
        exact absurd hmem (by decide)
      exact (hrest hslash).append hlast

/-- A text that can be lexed and ends with a line end is cut as it is on its
own. -/
theorem pieces_append (h : Lexed offset cs ts) (hend : EndsLine cs) :
    pieces (cs ++ ds) = pieces cs ++ pieces ds := by
  induction hlength : cs.length using Nat.strongRecOn
    generalizing offset cs ts with
  | ind n ih =>
      rcases text_cases cs with rfl | ⟨p, rest, rfl, hfits, hlt⟩
      · rw [pieces_nil]
        rfl
      · cases hfault : p.fault? (pieces rest) with
        | some fault =>
            rw [Lexed, hfits.pieces_append, tokensFrom, hfault] at h
            cases h
        | none =>
            have hinner := (lexed_iff_of_pieces hfits.pieces_append hfault).mp h
            rcases hinner with ⟨us, hus, -⟩
            have hlonger : p.Fits (rest ++ ds) :=
              hfits.append hfault (hend.mem_front hfits.spelling_ne_nil)
            have hrest := ih rest.length (hlength ▸ hlt) hus hend.behind rfl
            rw [List.append_assoc, hlonger.pieces_append, hrest,
              hfits.pieces_append, List.cons_append]

/-! ## Lexing pieces in a row -/

theorem tokensFrom_cons (offset : Nat) (p : Piece) (ps : List Piece) :
    tokensFrom [] offset (p :: ps) =
      match p.fault? ps with
      | some fault => .error ⟨fault, p.spanAt offset⟩
      | none =>
        (tokensFrom [] (offset + Text.byteLength p.spelling) ps).map
          ((p.token? (p.spanAt offset)).toList ++ ·) := by
  rw [tokensFrom]
  cases p.fault? ps with
  | some fault => rfl
  | none =>
      simp only
      rw [tokensFrom_eq]
      cases p.token? (p.spanAt offset) <;> rfl

theorem Piece.fault?_append (h : p.fault? ps = none) :
    p.fault? (ps ++ qs) = none := by
  cases p with
  | openLiteral => cases h
  | word letters =>
      cases ps with
      | nil => cases h
      | cons => rfl
  | _ => rfl

theorem tokensFrom_append (h : tokensFrom [] offset ps = .ok ts) :
    tokensFrom [] offset (ps ++ qs) =
      (tokensFrom [] (offset + Text.byteLength (ps.flatMap Piece.spelling))
        qs).map (ts ++ ·) := by
  induction ps generalizing offset ts with
  | nil =>
      cases h
      have hoffset : offset + Text.byteLength
          (([] : List Piece).flatMap Piece.spelling) = offset := rfl
      rw [List.nil_append, hoffset]
      cases tokensFrom [] offset qs with
      | error e => rfl
      | ok us => rfl
  | cons p ps ih =>
      rw [tokensFrom_cons] at h
      rw [List.cons_append, tokensFrom_cons]
      cases hfault : p.fault? ps with
      | some fault =>
          rw [hfault] at h
          cases h
      | none =>
          rw [hfault] at h
          rw [Piece.fault?_append hfault]
          cases hps : tokensFrom [] (offset + Text.byteLength p.spelling)
              ps with
          | error e =>
              rw [hps] at h
              cases h
          | ok us =>
              rw [hps] at h
              cases h
              simp only [ih hps, List.flatMap_cons, Text.byteLength_append,
                Nat.add_assoc]
              cases tokensFrom [] _ qs with
              | error e => rfl
              | ok vs => simp [Except.map]

/-! ## Lexing pieces somewhere else -/

theorem Piece.spanAt_shift
    (hsize : offset + distance + Text.byteLength p.spelling ≤ maxOffset) :
    p.spanAt (offset + distance) = (p.spanAt offset).shift distance := by
  have hfront : offset + Text.byteLength p.spelling ≤ maxOffset := by omega
  rw [spanAt, spanAt, Span.ofRange_of_le (Nat.le_add_right _ _) hsize,
    Span.ofRange_of_le (Nat.le_add_right _ _) hfront, Span.shift,
    Nat.add_right_comm]

theorem Piece.token?_shift :
    p.token? (span.shift distance) =
      (p.token? span).map (Token.shift distance) := by
  cases p <;> rfl

/-- What comes out of lexing at other offsets. -/
def shiftResult (distance : Nat) :
    Except LexError (List Token) → Except LexError (List Token)
  | .ok ts => .ok (ts.map (Token.shift distance))
  | .error e => .error (e.shift distance)

theorem tokensFrom_shift
    (hsize : offset + distance + Text.byteLength (ps.flatMap Piece.spelling) ≤
      maxOffset) :
    tokensFrom [] (offset + distance) ps =
      shiftResult distance (tokensFrom [] offset ps) := by
  induction ps generalizing offset with
  | nil => rfl
  | cons p ps ih =>
      rw [List.flatMap_cons, Text.byteLength_append] at hsize
      have hspan : p.spanAt (offset + distance) =
          (p.spanAt offset).shift distance := Piece.spanAt_shift (by omega)
      have hoffset : offset + distance + Text.byteLength p.spelling =
          offset + Text.byteLength p.spelling + distance := by omega
      rw [tokensFrom_cons, tokensFrom_cons, hspan, hoffset]
      cases p.fault? ps with
      | some fault => rfl
      | none =>
          simp only
          rw [ih (by omega), Piece.token?_shift]
          cases tokensFrom [] (offset + Text.byteLength p.spelling) ps with
          | error e => rfl
          | ok us => cases p.token? (p.spanAt offset) <;> rfl

end

/-! ## Sources in a row -/

/-- Behind a source that can be lexed and ends with a line end, another one is
lexed as it is on its own, with all spans moved by the bytes in front. -/
theorem lex_append {a b : String} {ts : List Token}
    (hsize : Text.byteLength (a ++ b).toList ≤ maxOffset)
    (hend : EndsLine a.toList) (ha : lex a = .ok ts) :
    (∀ us, lex b = .ok us →
      lex (a ++ b) =
        .ok (ts ++ us.map (Token.shift (Text.byteLength a.toList)))) ∧
    (∀ e, lex b = .error e →
      lex (a ++ b) = .error (e.shift (Text.byteLength a.toList))) := by
  have hlexed : Lexed 0 a.toList ts := ha
  rw [String.toList_append, Text.byteLength_append] at hsize
  have hbehind : tokensFrom [] (0 + Text.byteLength a.toList)
      (pieces b.toList) =
        shiftResult (Text.byteLength a.toList) (lex b) := by
    rw [lex]
    refine tokensFrom_shift ?_
    rw [spelling_flatMap_pieces]
    omega
  have hwhole : lex (a ++ b) =
      (shiftResult (Text.byteLength a.toList) (lex b)).map (ts ++ ·) := by
    rw [lex, String.toList_append, pieces_append hlexed hend,
      tokensFrom_append hlexed, spelling_flatMap_pieces, hbehind]
  constructor
  · intro us hb
    rw [hwhole, hb]
    rfl
  · intro e hb
    rw [hwhole, hb]
    rfl

/-- The colons on both sides of the line end make no namespace mark, and the
literal that is never closed starts behind the eight bytes in front. -/
theorem lex_append_colonAtLineEnd :
    Text.byteLength ("é \"/\":\n" ++ ":b \"").toList ≤ maxOffset ∧
      EndsLine "é \"/\":\n".toList ∧
      lex "é \"/\":\n" = .ok
        [⟨.literal, "/", ⟨3, 6⟩⟩, ⟨.colon, "", ⟨6, 7⟩⟩,
         ⟨.endLine, "", ⟨7, 8⟩⟩] ∧
      lex ("é \"/\":\n" ++ ":b ") = .ok
        [⟨.literal, "/", ⟨3, 6⟩⟩, ⟨.colon, "", ⟨6, 7⟩⟩,
         ⟨.endLine, "", ⟨7, 8⟩⟩, ⟨.colon, "", ⟨8, 9⟩⟩,
         ⟨.identifier, "b", ⟨9, 10⟩⟩] ∧
      lex ("é \"/\":\n" ++ ":b \"") =
        .error ⟨.unclosedLiteral, ⟨11, 12⟩⟩ := by
  have hsize : Text.byteLength ("é \"/\":\n" ++ ":b \"").toList ≤
      maxOffset := by
    decide
  have hsize' : Text.byteLength ("é \"/\":\n" ++ ":b ").toList ≤ maxOffset := by
    decide
  have hend : EndsLine "é \"/\":\n".toList := .inr (by decide)
  have hfront : lex "é \"/\":\n" = .ok
      [⟨.literal, "/", ⟨3, 6⟩⟩, ⟨.colon, "", ⟨6, 7⟩⟩,
       ⟨.endLine, "", ⟨7, 8⟩⟩] := by
    decide +kernel
  have hbehind : lex ":b " = .ok
      [⟨.colon, "", ⟨0, 1⟩⟩, ⟨.identifier, "b", ⟨1, 2⟩⟩] := by
    decide +kernel
  have hopen : lex ":b \"" = .error ⟨.unclosedLiteral, ⟨3, 4⟩⟩ := by
    decide +kernel
  exact ⟨hsize, hend, hfront, (lex_append hsize' hend hfront).1 _ hbehind,
    (lex_append hsize hend hfront).2 _ hopen⟩

end Idl
