import Idl.Parse
import Idl.Proofs.Rendering.Shape
import Idl.Proofs.Text.Bytes
import Idl.Proofs.Token.Lexed
import Mathlib.Data.List.Induction

/-!
# Tokens tile a source

A text that is lexed falls apart into tokens and gaps.  A token is spelled out
in full, and a word or a colon ends where something else begins.  A gap holds
blanks, characters that start nothing and comments; as a comment reaches up to
the end of its line, nothing but the line end or the end of the text can follow
it.  Since a piece that fits is the piece that is cut, a text that falls apart
into tokens is lexed to them (`Tiles.lexed`), and a text that is lexed falls
apart into its tokens (`tiles_of_lexed`).

A source of any size the offsets can tell apart is then seen from the outside:
`Tiling` says where the tokens stand, what is written there and what is written
between them.
-/

namespace Idl

open Grammar

/-! ## Tokens and gaps as text -/

/-- The characters by which a token is spelled. -/
def Token.spelling (t : Token) : List Char :=
  match t.kind with
  | .identifier => t.text.toList
  | .literal => '"' :: (t.text.toList ++ ['"'])
  | kind => kind.mark

/-- The text of a token is one that a source can give to its kind. -/
inductive Token.Spelled : Token → Prop where
  | word {w : String} {span : Span} (hw : IsIdent w) :
      Spelled ⟨.identifier, w, span⟩
  | literal {body : String} {span : Span} (hbody : '"' ∉ body.toList) :
      Spelled ⟨.literal, body, span⟩
  | mark {kind : TokenKind} {span : Span} (hmark : kind.mark ≠ []) :
      Spelled ⟨kind, "", span⟩

/-- A word or a colon that is followed by the text does not go on there. -/
structure Token.Ends (t : Token) (rest : List Char) : Prop where
  word : t.kind = .identifier → Breaks rest
  colon : t.kind = .colon → NotAhead (· == ':') rest

/-- What may stand between tokens, in front of the text that follows. -/
inductive Gap : List Char → List Char → Prop where
  | nil {rest : List Char} : Gap [] rest
  | blank {c : Char} {gap rest : List Char} (hc : isBlank c = true)
      (hgap : Gap gap rest) : Gap (c :: gap) rest
  | comment {body gap rest : List Char} (hbody : '\n' ∉ body)
      (hend : NotAhead (· != '\n') (gap ++ rest)) (hgap : Gap gap rest) :
      Gap ('/' :: '/' :: (body ++ gap)) rest
  | stray {c : Char} {gap rest : List Char} (hc : ¬ StartsToken c)
      (hblank : isBlank c = false)
      (hslash : c = '/' → NotAhead (· == '/') (gap ++ rest))
      (hgap : Gap gap rest) : Gap (c :: gap) rest

/-- A text that starts at an offset falls apart into the tokens and gaps
around them. -/
inductive Tiles : Nat → List Char → List Token → Prop where
  | last {offset : Nat} {gap : List Char} (hgap : Gap gap []) :
      Tiles offset gap []
  | token {offset start stop : Nat} {gap rest : List Char} {t : Token}
      {ts : List Token} (hgap : Gap gap (t.spelling ++ rest))
      (hspelled : t.Spelled) (hends : t.Ends rest)
      (hstart : start = offset + Text.byteLength gap)
      (hstop : stop = start + Text.byteLength t.spelling)
      (hspan : t.span = Span.ofRange start stop)
      (hrest : Tiles stop rest ts) :
      Tiles offset (gap ++ (t.spelling ++ rest)) (t :: ts)

theorem Span.ofRange_of_le {start stop : Nat} (h : start ≤ stop)
    (hstop : stop ≤ maxOffset) : ofRange start stop = ⟨start, stop⟩ := by
  rw [ofRange, clamp, clamp, Nat.min_eq_left (Nat.le_trans h hstop),
    Nat.min_eq_left hstop]

theorem Token.spelling_mark {kind : TokenKind} (hmark : kind.mark ≠ [])
    (text : String) (span : Span) :
    Token.spelling ⟨kind, text, span⟩ = kind.mark := by
  cases kind <;> first | rfl | exact absurd rfl hmark

section
variable {p : Piece} {t : Token} {span : Span} {gap rest : List Char}

/-- A spelled token is cut as one piece. -/
theorem Token.Spelled.exists_piece (h : t.Spelled) (hends : t.Ends rest) :
    ∃ p : Piece, p.Fits rest ∧ p.spelling = t.spelling ∧
      p.fault? (pieces rest) = none ∧
      ∀ span, p.token? span = some { t with span } := by
  cases h with
  | @word w span hw =>
      have hrest := hends.word rfl
      have hne : w.toList ≠ [] := fun h =>
        hw.ne_empty (String.toList_eq_nil_iff.mp h)
      refine ⟨.word w.toList, .word (.word hne hw.wordChar) hrest.notAhead,
        rfl, fault?_word _ hrest, fun span => ?_⟩
      rw [Piece.token?, String.ofList_toList]
  | @literal body span hbody =>
      refine ⟨.literal body.toList, .literal (.literal hbody), rfl, rfl,
        fun span => ?_⟩
      rw [Piece.token?, String.ofList_toList]
  | @mark kind span hmark =>
      exact ⟨.mark kind, .mark (.mark hmark) hends.colon,
        (Token.spelling_mark hmark _ _).symm, rfl, fun span => rfl⟩

/-- A piece that gives a token spells it. -/
theorem Piece.Fits.spelled (h : p.Fits rest)
    (hfault : p.fault? (pieces rest) = none) (ht : p.token? span = some t) :
    t.Spelled ∧ t.Ends rest ∧ t.spelling = p.spelling ∧ t.span = span := by
  cases h with
  | blank | comment | openLiteral | stray => cases ht
  | @word letters _ h hrest =>
      cases h with
      | word hne hletters =>
          cases ht
          have hw : IsIdent (String.ofList letters) :=
            ⟨fun h => hne (by simpa using congrArg String.toList h), by
              simpa using hletters⟩
          refine ⟨.word hw, ⟨fun _ => ?_, fun h => ?_⟩,
            String.toList_ofList, rfl⟩
          · cases rest with
            | nil => simp [Piece.fault?] at hfault
            | cons c rest => exact hrest c rfl
          · cases h
  | @literal body _ h =>
      cases h with
      | literal hbody =>
          cases ht
          refine ⟨.literal (by simpa using hbody),
            ⟨fun h => ?_, fun h => ?_⟩, ?_, rfl⟩
          · cases h
          · cases h
          · simp [Token.spelling, Piece.spelling]
  | @mark kind _ h hrest =>
      cases h with
      | mark hmark =>
          cases ht
          refine ⟨.mark hmark, ⟨?_, hrest⟩, Token.spelling_mark hmark _ _, rfl⟩
          rintro rfl
          exact absurd rfl hmark

theorem Gap.blanks {run : List Char}
    (hrun : ∀ c ∈ run, isBlank c = true) (hgap : Gap gap rest) :
    Gap (run ++ gap) rest := by
  induction run with
  | nil => exact hgap
  | cons c run ih =>
      obtain ⟨hc, hrun⟩ := List.forall_mem_cons.mp hrun
      exact .blank hc (ih hrun)

/-- A piece that gives no token makes a gap longer. -/
theorem Piece.Fits.gap_append {cs : List Char} (h : p.Fits cs)
    (hfault : p.fault? (pieces cs) = none) (ht : p.token? span = none)
    (hcs : cs = gap ++ rest) (hgap : Gap gap rest) :
    Gap (p.spelling ++ gap) rest := by
  cases h with
  | @blank run _ h =>
      cases h with
      | blank hne hrun => exact .blanks hrun hgap
  | comment h hrest =>
      cases h with
      | comment hbody => exact .comment hbody (hcs ▸ hrest) hgap
  | stray hc hblank hrest => exact .stray hc hblank (hcs ▸ hrest) hgap
  | word | literal | mark => cases ht
  | openLiteral => cases hfault

end

/-! ## Lexing is taking apart -/

section
variable {offset : Nat} {p : Piece} {t : Token} {ts : List Token}
  {gap cs rest : List Char}

theorem lexed_silent (hfits : p.Fits rest)
    (hfault : p.fault? (pieces rest) = none)
    (htoken : ∀ span, p.token? span = none) :
    Lexed offset (p.spelling ++ rest) ts ↔
      Lexed (offset + Text.byteLength p.spelling) rest ts := by
  rw [lexed_iff_of_pieces hfits.pieces_append hfault, htoken]
  simp

theorem lexed_gap (h : Gap gap rest) :
    Lexed offset (gap ++ rest) ts ↔
      Lexed (offset + Text.byteLength gap) rest ts := by
  induction h generalizing offset with
  | nil => rfl
  | @blank c gap rest hc hgap ih =>
      have hlength : Text.byteLength (c :: gap) = 1 + Text.byteLength gap := by
        rw [Text.byteLength_cons, utf8Size_of_isBlank hc]
      rw [List.cons_append, lexed_blank hc, ih, hlength, Nat.add_assoc]
  | @comment body gap rest hbody hend hgap ih =>
      have hfits : Piece.Fits (.comment body) (gap ++ rest) :=
        .comment (.comment hbody) hend
      have hfront : '/' :: '/' :: (body ++ gap) =
        (Piece.comment body).spelling ++ gap := rfl
      rw [hfront, List.append_assoc, lexed_silent hfits rfl fun _ => rfl, ih,
        Text.byteLength_append, Nat.add_assoc]
  | @stray c gap rest hc hblank hslash hgap ih =>
      have hfits : Piece.Fits (.stray c) (gap ++ rest) :=
        .stray hc hblank hslash
      have hfront : c :: gap = (Piece.stray c).spelling ++ gap := rfl
      rw [hfront, List.append_assoc, lexed_silent hfits rfl fun _ => rfl, ih,
        Text.byteLength_append, Nat.add_assoc]

theorem lexed_spelled (hspelled : t.Spelled) (hends : t.Ends rest)
    (hspan : t.span =
      Span.ofRange offset (offset + Text.byteLength t.spelling))
    (h : Lexed (offset + Text.byteLength t.spelling) rest ts) :
    Lexed offset (t.spelling ++ rest) (t :: ts) := by
  obtain ⟨p, hfits, hspelling, hfault, htoken⟩ := hspelled.exists_piece hends
  rw [← hspelling] at hspan h ⊢
  refine (lexed_iff_of_pieces hfits.pieces_append hfault).mpr ⟨ts, h, ?_⟩
  rw [htoken, Piece.spanAt, ← hspan]
  rfl

theorem Tiles.lexed (h : Tiles offset cs ts) : Lexed offset cs ts := by
  induction h with
  | @last offset gap hgap =>
      have hend : Lexed offset (gap ++ []) [] :=
        (lexed_gap hgap).mpr (congrArg (tokensFrom [] _) pieces_nil)
      rwa [List.append_nil] at hend
  | token hgap hspelled hends hstart hstop hspan hrest ih =>
      subst hstart hstop
      rw [lexed_gap hgap]
      exact lexed_spelled hspelled hends hspan ih

/-- Characters in front of a text belong to its first gap if they make every
gap there longer. -/
theorem Tiles.prepend {front : List Char}
    (h : Tiles (offset + Text.byteLength front) cs ts)
    (hfront : ∀ gap rest, cs = gap ++ rest → Gap gap rest →
      Gap (front ++ gap) rest) : Tiles offset (front ++ cs) ts := by
  cases h with
  | last hgap => exact .last (hfront _ _ (List.append_nil _).symm hgap)
  | @token _ start stop gap rest t ts hgap hspelled hends hstart hstop hspan
      hrest =>
      rw [← List.append_assoc]
      refine .token (hfront _ _ rfl hgap) hspelled hends ?_ hstop hspan hrest
      rw [hstart, Text.byteLength_append, Nat.add_assoc]

theorem tiles_of_lexed (h : Lexed offset cs ts) : Tiles offset cs ts := by
  induction hlength : cs.length using Nat.strongRecOn
    generalizing offset cs ts with
  | ind n ih =>
      rcases text_cases cs with rfl | ⟨p, rest, rfl, hfits, hlt⟩
      · rw [Lexed, pieces_nil] at h
        cases h
        exact .last .nil
      · cases hfault : p.fault? (pieces rest) with
        | some fault =>
            rw [Lexed, hfits.pieces_append, tokensFrom, hfault] at h
            cases h
        | none =>
            obtain ⟨us, hus, rfl⟩ :=
              (lexed_iff_of_pieces hfits.pieces_append hfault).mp h
            have htiles := ih rest.length (hlength ▸ hlt) hus rfl
            cases htoken : p.token? (p.spanAt offset) with
            | none =>
                exact htiles.prepend fun _ _ hrest hgap =>
                  hfits.gap_append hfault htoken hrest hgap
            | some t =>
                obtain ⟨hspelled, hends, hspelling, hspan⟩ :=
                  hfits.spelled hfault htoken
                rw [Piece.spanAt, ← hspelling] at hspan
                rw [← hspelling] at htiles ⊢
                have hfront : Tiles offset ([] ++ (t.spelling ++ rest))
                    (t :: us) :=
                  .token .nil hspelled hends rfl rfl hspan htiles
                exact hfront

end

/-! ## What is written where -/

/-- The offsets of the span cut the source into three parts. -/
structure Slice (source : List Char) (span : Span)
    (before mid after : List Char) : Prop where
  eq : source = before ++ (mid ++ after)
  start : span.start = Text.byteLength before
  stop : span.stop = Text.byteLength (before ++ mid)

/-- A word goes on neither to the left nor to the right, and a colon is not
followed by another one. -/
structure Token.Maximal (t : Token) (before after : List Char) : Prop where
  left : t.kind = .identifier → ∀ c ∈ before.getLast?, isWordChar c = false
  right : t.kind = .identifier → NotAhead isWordChar after
  colon : t.kind = .colon → NotAhead (· == ':') after

/-- Where the next token starts, or the source ends. -/
def startOffset (source : List Char) (ts : List Token) : Nat :=
  (ts.head?.map fun t => t.span.start).getD (Text.byteLength source)

/-- The tokens stand in the source one behind the other, each spelled out at
its span, with gaps between them. -/
structure Tiling (source : List Char) (ts : List Token) : Prop where
  kind : ∀ t ∈ ts, t.kind ≠ .endOfInput
  nonempty : ∀ t ∈ ts, t.span.start < t.span.stop
  inside : ∀ t ∈ ts, t.span.stop ≤ Text.byteLength source
  ordered : ts.Pairwise fun t u => t.span.stop ≤ u.span.start
  token : ∀ t ∈ ts, t.Spelled ∧ ∃ before after,
    Slice source t.span before t.spelling after ∧ t.Maximal before after
  gap : ∀ us vs, ts = us ++ vs → ∃ before gap after,
    Slice source ⟨endOffset us, startOffset source vs⟩ before gap after ∧
      Gap gap after

/-! ## Going through a source -/

/-- No word goes on across the place between the two texts. -/
def Apart (front rest : List Char) : Prop :=
  (∀ c ∈ front.getLast?, isWordChar c = false) ∨ NotAhead isWordChar rest

/-- A place in a source of moderate size, with what is written in front of it
and behind it, and the tokens that are still to come. -/
structure Underway (front rest : List Char) (ts : List Token) : Prop where
  tiles : Tiles (Text.byteLength front) rest ts
  apart : Apart front rest
  size : Text.byteLength (front ++ rest) ≤ maxOffset

section
variable {front gap rest source before mid after : List Char} {t : Token}
  {ts : List Token} {span : Span}

theorem apart_concat (front : List Char) {c : Char}
    (hc : isWordChar c = false) : Apart (front ++ [c]) rest :=
  .inl (by simpa using hc)

theorem Gap.apart (h : Gap gap rest) (hfront : Apart front (gap ++ rest)) :
    Apart (front ++ gap) rest := by
  induction h generalizing front with
  | nil => rwa [List.append_nil]
  | @blank c gap rest hc hgap ih =>
      have hword := isWordChar_of_isBlank hc
      have hnext := ih (apart_concat front hword)
      rwa [List.append_assoc] at hnext
  | @stray c gap rest hc hblank hslash hgap ih =>
      have hword : isWordChar c = false :=
        Bool.eq_false_iff.mpr fun hword => hc (.inl hword)
      have hnext := ih (apart_concat front hword)
      rwa [List.append_assoc] at hnext
  | @comment body gap rest hbody hend hgap ih =>
      have hline : NotAhead isWordChar (gap ++ rest) := by
        intro c hc
        obtain rfl : c = '\n' := by simpa using hend c hc
        rfl
      have hnext : Apart (front ++ '/' :: '/' :: body ++ gap) rest :=
        ih (.inr hline)
      rwa [List.append_assoc] at hnext

theorem isWordChar_of_mem_mark {kind : TokenKind} {c : Char}
    (h : c ∈ kind.mark) : isWordChar c = false := by
  have hall : kind.mark.all (!isWordChar ·) = true := by
    cases kind <;> rfl
  simpa using List.all_eq_true.mp hall c h

theorem Token.Spelled.apart (h : t.Spelled) (hends : t.Ends rest) :
    Apart (front ++ t.spelling) rest := by
  cases h with
  | word hw => exact .inr (hends.word rfl).notAhead
  | @literal body span hbody =>
      have hquote : Token.spelling ⟨.literal, body, span⟩ =
        ('"' :: body.toList) ++ ['"'] := rfl
      rw [hquote, ← List.append_assoc]
      exact apart_concat _ rfl
  | @mark kind span hmark =>
      left
      intro c hc
      rw [Token.spelling_mark hmark, List.getLast?_append,
        List.getLast?_eq_some_getLast hmark] at hc
      cases hc
      exact isWordChar_of_mem_mark (List.getLast_mem hmark)

theorem Token.Spelled.spelling_ne_nil (h : t.Spelled) : t.spelling ≠ [] := by
  cases h with
  | word hw => exact fun h => hw.ne_empty (String.toList_eq_nil_iff.mp h)
  | literal hbody => exact List.cons_ne_nil _ _
  | mark hmark => rwa [Token.spelling_mark hmark]

theorem Token.Spelled.kind_ne (h : t.Spelled) : t.kind ≠ .endOfInput := by
  cases h with
  | word hw => exact nofun
  | literal hbody => exact nofun
  | mark hmark =>
      rintro rfl
      exact hmark rfl

theorem Token.Spelled.maximal (h : t.Spelled) (hends : t.Ends after)
    (hapart : Apart before (t.spelling ++ after)) :
    t.Maximal before after where
  left hkind := by
    cases h with
    | @word w span hw =>
        rcases hapart with hleft | hright
        · exact hleft
        · cases hletters : w.toList with
          | nil =>
              exact absurd (String.toList_eq_nil_iff.mp hletters) hw.ne_empty
          | cons c letters =>
              have hc := hw.wordChar c (by simp [hletters])
              have hnot := hright c (by simp [Token.spelling, hletters])
              rw [hc] at hnot
              cases hnot
    | literal => cases hkind
    | mark hmark =>
        cases hkind
        exact absurd rfl hmark
  right hkind := (hends.word hkind).notAhead
  colon := hends.colon

/-- From a place in front of a token to the place behind it. -/
theorem Underway.next (h : Underway front rest (t :: ts)) :
    ∃ gap after, rest = gap ++ (t.spelling ++ after) ∧
      Gap gap (t.spelling ++ after) ∧ t.Spelled ∧
      t.Maximal (front ++ gap) after ∧
      t.span = ⟨Text.byteLength (front ++ gap),
        Text.byteLength (front ++ gap ++ t.spelling)⟩ ∧
      Underway (front ++ gap ++ t.spelling) after ts := by
  rcases h with ⟨htiles, hapart, hsize⟩
  cases htiles with
  | @token _ start stop gap after _ _ hgap hspelled hends hstart hstop hspan
      hrest =>
      have hinner := hgap.apart hapart
      rw [← Text.byteLength_append] at hstart
      rw [hstart, ← Text.byteLength_append] at hstop
      have hsource : front ++ (gap ++ (t.spelling ++ after)) =
          front ++ gap ++ t.spelling ++ after := by
        simp only [List.append_assoc]
      rw [hsource] at hsize
      have hlast : stop ≤ maxOffset := by
        rw [Text.byteLength_append] at hsize
        omega
      have hfirst : start ≤ stop := by
        rw [hstop, Text.byteLength_append]
        omega
      rw [Span.ofRange_of_le hfirst hlast, hstart, hstop] at hspan
      subst hstart hstop
      exact ⟨gap, after, rfl, hgap, hspelled, hspelled.maximal hends hinner,
        hspan, hrest, hspelled.apart hends, hsize⟩

/-- The tokens up to any point cover the source up to the last of them. -/
theorem Underway.split {us vs : List Token}
    (h : Underway [] source (us ++ vs)) :
    ∃ front rest, source = front ++ rest ∧
      Text.byteLength front = endOffset us ∧ Underway front rest vs := by
  induction us using List.reverseRecOn generalizing vs with
  | nil => exact ⟨[], source, rfl, rfl, h⟩
  | append_singleton us t ih =>
      rw [List.append_assoc] at h
      obtain ⟨front, rest, rfl, -, hfront⟩ := ih h
      obtain ⟨gap, after, rfl, -, -, -, hspan, hnext⟩ := hfront.next
      refine ⟨front ++ gap ++ t.spelling, after, ?_, ?_, hnext⟩
      · simp only [List.append_assoc]
      · rw [endOffset, List.getLast?_concat, Option.map_some, hspan]
        rfl

theorem Underway.ordered (h : Underway front rest ts) :
    (∀ t ∈ ts, Text.byteLength front ≤ t.span.start) ∧
      ts.Pairwise fun t u => t.span.stop ≤ u.span.start := by
  induction ts generalizing front rest with
  | nil => exact ⟨nofun, .nil⟩
  | cons t ts ih =>
      obtain ⟨gap, after, rfl, -, -, -, hspan, hnext⟩ := h.next
      obtain ⟨hlater, hpairs⟩ := ih hnext
      simp only [Text.byteLength_append] at hlater hspan
      rw [List.forall_mem_cons, List.pairwise_cons, hspan]
      refine ⟨⟨by simp, fun u hu => ?_⟩, fun u hu => ?_, hpairs⟩
      · exact Nat.le_trans (by omega) (hlater u hu)
      · exact hlater u hu

theorem Slice.start_lt_stop (h : Slice source span before mid after)
    (hmid : mid ≠ []) : span.start < span.stop := by
  have hpos := Text.byteLength_pos hmid
  rw [h.start, h.stop, Text.byteLength_append]
  omega

theorem Slice.stop_le (h : Slice source span before mid after) :
    span.stop ≤ Text.byteLength source := by
  rw [h.stop, h.eq, ← List.append_assoc, Text.byteLength_append _ after]
  omega

theorem Underway.token_at (h : Underway [] source ts) (ht : t ∈ ts) :
    t.Spelled ∧ ∃ before after,
      Slice source t.span before t.spelling after ∧
        t.Maximal before after := by
  obtain ⟨us, vs, rfl⟩ := List.append_of_mem ht
  obtain ⟨front, rest, rfl, -, hfront⟩ := h.split
  obtain ⟨gap, after, rfl, -, hspelled, hmaximal, hspan, -⟩ := hfront.next
  refine ⟨hspelled, front ++ gap, after, ⟨?_, ?_, ?_⟩, hmaximal⟩
  · simp only [List.append_assoc]
  · rw [hspan]
  · rw [hspan]

theorem Underway.gap_at {us vs : List Token}
    (h : Underway [] source (us ++ vs)) : ∃ before gap after,
      Slice source ⟨endOffset us, startOffset source vs⟩ before gap after ∧
        Gap gap after := by
  obtain ⟨front, rest, rfl, hstart, hfront⟩ := h.split
  cases vs with
  | nil =>
      cases hfront.tiles with
      | last hgap =>
          refine ⟨front, rest, [], ⟨?_, hstart.symm, rfl⟩, hgap⟩
          rw [List.append_nil]
  | cons t vs =>
      obtain ⟨gap, after, rfl, hgap, -, -, hspan, -⟩ := hfront.next
      refine ⟨front, gap, _, ⟨rfl, hstart.symm, ?_⟩, hgap⟩
      rw [startOffset, List.head?_cons, Option.map_some, hspan]
      rfl

/-- The tokens of a source tile it. -/
theorem lex_tiling {source : String} {ts : List Token}
    (hsize : Text.byteLength source.toList ≤ maxOffset)
    (h : lex source = .ok ts) : Tiling source.toList ts := by
  have hstart : Underway [] source.toList ts :=
    ⟨tiles_of_lexed h, .inl nofun, hsize⟩
  exact {
    kind := fun t ht => (hstart.token_at ht).1.kind_ne
    nonempty := fun t ht => by
      obtain ⟨hspelled, before, after, hslice, -⟩ := hstart.token_at ht
      exact hslice.start_lt_stop hspelled.spelling_ne_nil
    inside := fun t ht => by
      obtain ⟨-, before, after, hslice, -⟩ := hstart.token_at ht
      exact hslice.stop_le
    ordered := hstart.ordered.2
    token := fun t ht => hstart.token_at ht
    gap := fun us vs hts => (hts ▸ hstart).gap_at }

theorem lex_tiling_quoteInComment :
    Text.byteLength "é a:b // \"c\n".toList ≤ maxOffset ∧
      lex "é a:b // \"c\n" = .ok
        [⟨.identifier, "a", ⟨3, 4⟩⟩, ⟨.colon, "", ⟨4, 5⟩⟩,
         ⟨.identifier, "b", ⟨5, 6⟩⟩, ⟨.endLine, "", ⟨12, 13⟩⟩] ∧
      Tiling "é a:b // \"c\n".toList
        [⟨.identifier, "a", ⟨3, 4⟩⟩, ⟨.colon, "", ⟨4, 5⟩⟩,
         ⟨.identifier, "b", ⟨5, 6⟩⟩, ⟨.endLine, "", ⟨12, 13⟩⟩] := by
  have hsize : Text.byteLength "é a:b // \"c\n".toList ≤ maxOffset := by
    decide
  have hlex : lex "é a:b // \"c\n" = .ok
      [⟨.identifier, "a", ⟨3, 4⟩⟩, ⟨.colon, "", ⟨4, 5⟩⟩,
       ⟨.identifier, "b", ⟨5, 6⟩⟩, ⟨.endLine, "", ⟨12, 13⟩⟩] := by
    decide +kernel
  exact ⟨hsize, hlex, lex_tiling hsize hlex⟩

end

end Idl
