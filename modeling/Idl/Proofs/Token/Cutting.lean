import Idl.Token.Piece

/-!
# Cuts are longest matches

Every sort of piece but the stray character is given by a pattern.  A piece
fits in front of the text that follows it if that text does not go on with the
piece.  A match that does not fit can be made longer, and the piece that is cut
always fits, so the cut is the longest match of all patterns, and no two
patterns match the same longest text.  Where nothing matches a single character
is cut.

The rest of the theory takes a text apart with `text_cases`, piece by piece, and
puts it together with `Piece.Fits.pieces_append`: a piece that fits is the one
that is cut.
-/

namespace Idl

/-- The text starts with no character of the class. -/
def NotAhead (p : Char → Bool) (cs : List Char) : Prop :=
  ∀ c ∈ cs.head?, p c = false

/-- The character may be the first of a token. -/
def StartsToken (c : Char) : Prop :=
  isWordChar c = true ∨ c = '"' ∨ ∃ kind : TokenKind, kind.mark.head? = some c

namespace Piece

/-- The pieces that the patterns describe. -/
inductive Declared : Piece → Prop where
  | blank {run : List Char} (hne : run ≠ [])
      (hrun : ∀ c ∈ run, isBlank c = true) : Declared (.blank run)
  | comment {body : List Char} (hbody : '\n' ∉ body) :
      Declared (.comment body)
  | word {letters : List Char} (hne : letters ≠ [])
      (hletters : ∀ c ∈ letters, isWordChar c = true) :
      Declared (.word letters)
  | literal {body : List Char} (hbody : '"' ∉ body) : Declared (.literal body)
  | openLiteral {body : List Char} (hbody : '"' ∉ body) :
      Declared (.openLiteral body)
  | mark {kind : TokenKind} (hmark : kind.mark ≠ []) : Declared (.mark kind)

/-- The piece is as long as it can be in front of the text. -/
inductive Fits : Piece → List Char → Prop where
  | blank {run rest : List Char} (h : Declared (.blank run))
      (hrest : NotAhead isBlank rest) : Fits (.blank run) rest
  | comment {body rest : List Char} (h : Declared (.comment body))
      (hrest : NotAhead (· != '\n') rest) : Fits (.comment body) rest
  | word {letters rest : List Char} (h : Declared (.word letters))
      (hrest : NotAhead isWordChar rest) : Fits (.word letters) rest
  | literal {body rest : List Char} (h : Declared (.literal body)) :
      Fits (.literal body) rest
  | openLiteral {body : List Char} (h : Declared (.openLiteral body)) :
      Fits (.openLiteral body) []
  | mark {kind : TokenKind} {rest : List Char} (h : Declared (.mark kind))
      (hrest : kind = .colon → NotAhead (· == ':') rest) :
      Fits (.mark kind) rest
  | stray {c : Char} {rest : List Char} (hc : ¬ StartsToken c)
      (hblank : isBlank c = false)
      (hrest : c = '/' → NotAhead (· == '/') rest) : Fits (.stray c) rest

end Piece

/-! ## Runs of a class -/

section
variable {p : Char → Bool} {run rest cs : List Char}

theorem notAhead_dropWhile (p : Char → Bool) (cs : List Char) :
    NotAhead p (cs.dropWhile p) := by
  intro c hc
  have hnot := List.head?_dropWhile_not p cs
  rw [hc] at hnot
  simpa using hnot

theorem notAhead_beq {c : Char} (h : ∀ tail, cs ≠ c :: tail) :
    NotAhead (· == c) cs := by
  cases cs with
  | nil => exact nofun
  | cons d tail =>
      have hd : d ≠ c := fun hd => h tail (congrArg (· :: tail) hd)
      simpa [NotAhead] using hd

theorem takeWhile_append_of_notAhead (hrun : ∀ c ∈ run, p c = true)
    (hrest : NotAhead p rest) : (run ++ rest).takeWhile p = run := by
  rw [List.takeWhile_append_of_pos hrun]
  cases rest with
  | nil => simp
  | cons c rest => simp [hrest c rfl]

theorem dropWhile_append_of_notAhead (hrun : ∀ c ∈ run, p c = true)
    (hrest : NotAhead p rest) : (run ++ rest).dropWhile p = rest := by
  rw [List.dropWhile_append_of_pos hrun]
  cases rest with
  | nil => simp
  | cons c rest => simp [hrest c rfl]

theorem forall_ne_of_not_mem {c : Char} (h : c ∉ cs) :
    ∀ d ∈ cs, (d != c) = true := by
  intro d hd
  simpa using fun hdc : d = c => h (hdc ▸ hd)

theorem mem_takeWhile {c : Char} (h : c ∈ cs.takeWhile p) : p c = true :=
  List.all_eq_true.mp List.all_takeWhile c h

end

/-! ## The piece that is cut fits -/

section
variable {c : Char} {cs rest : List Char} {p : Piece}

theorem fits_cutLiteral (cs : List Char) :
    (cutLiteral cs).1.Fits (cutLiteral cs).2 := by
  unfold cutLiteral
  split
  next hdrop =>
    have hsplit := List.takeWhile_append_dropWhile (p := (· != '"')) (l := cs)
    rw [hdrop, List.append_nil] at hsplit
    refine .openLiteral (.openLiteral fun hquote => ?_)
    rw [← hsplit] at hquote
    simpa using mem_takeWhile hquote
  next =>
    refine .literal (.literal fun hquote => ?_)
    simpa using mem_takeWhile hquote

theorem fits_cutSlash (cs : List Char) :
    (cutSlash cs).1.Fits (cutSlash cs).2 := by
  have hslash : ¬ StartsToken '/' := by
    rintro (hword | hquote | ⟨kind, hkind⟩)
    · exact absurd hword (by decide)
    · exact absurd hquote (by decide)
    · cases kind <;> simp [TokenKind.mark] at hkind
  unfold cutSlash
  split
  next cs =>
    refine .comment (.comment fun hline => ?_) (notAhead_dropWhile _ cs)
    simpa using mem_takeWhile hline
  next cs hnot =>
    exact .stray hslash rfl fun _ => notAhead_beq hnot

theorem fits_cutColon (cs : List Char) :
    (cutColon cs).1.Fits (cutColon cs).2 := by
  unfold cutColon
  split
  next cs => exact .mark (.mark (by decide)) nofun
  next cs hnot =>
    exact .mark (.mark (by decide)) fun _ => notAhead_beq hnot

/-- A single mark is spelled by one character, and no other mark but the colon
starts with it. -/
theorem markOf?_eq_some_iff {kind : TokenKind} :
    markOf? c = some kind ↔ kind.mark.head? = some c ∧ c ≠ ':' := by
  constructor
  · intro h
    have hmark := mark_of_markOf? h
    have hmem := List.mem_of_find?_eq_some h
    refine ⟨by rw [hmark]; rfl, ?_⟩
    rintro rfl
    revert hmark hmem
    cases kind <;> decide
  · rintro ⟨hhead, hcolon⟩
    cases kind <;> simp [TokenKind.mark] at hhead <;> subst hhead <;>
      first | rfl | exact absurd rfl hcolon

theorem fits_cut (c : Char) (cs : List Char) :
    (cut c cs).1.Fits (cut c cs).2 := by
  unfold cut
  split
  next hc =>
    refine .blank (.blank (by simp) fun d hd => ?_) (notAhead_dropWhile _ cs)
    rcases List.mem_cons.mp hd with rfl | hd
    · exact hc
    · exact mem_takeWhile hd
  next hblank =>
    split
    next hc =>
      refine .word (.word (by simp) fun d hd => ?_) (notAhead_dropWhile _ cs)
      rcases List.mem_cons.mp hd with rfl | hd
      · exact hc
      · exact mem_takeWhile hd
    next hword =>
      split
      next => exact fits_cutLiteral cs
      next hquote =>
        split
        next => exact fits_cutSlash cs
        next hslash =>
          split
          next => exact fits_cutColon cs
          next hcolon =>
            split
            next kind hkind =>
              have hmark := mark_of_markOf? hkind
              refine .mark (.mark (by simp [hmark])) ?_
              rintro rfl
              exact absurd (markOf?_eq_some_iff.mp hkind).1 (by
                simpa [TokenKind.mark] using Ne.symm hcolon)
            next hnone =>
              refine .stray ?_ (by simpa using hblank) fun h => absurd h hslash
              rintro (h | h | ⟨kind, hkind⟩)
              · exact hword h
              · exact hquote h
              · rw [markOf?_eq_some_iff.mpr ⟨hkind, hcolon⟩] at hnone
                cases hnone

/-! ## Only the piece that is cut fits -/

theorem isBlank_of_isWordChar (h : isWordChar c = true) :
    isBlank c = false := by
  cases hblank : isBlank c with
  | false => rfl
  | true =>
      simp only [isBlank, Bool.or_eq_true, beq_iff_eq] at hblank
      rcases hblank with (rfl | rfl) | rfl <;> exact absurd h (by decide)

theorem isWordChar_of_isBlank (h : isBlank c = true) :
    isWordChar c = false := by
  refine Bool.eq_false_iff.mpr fun hword => ?_
  rw [isBlank_of_isWordChar hword] at h
  cases h

theorem toNat_lt_of_isBlank (h : isBlank c = true) : c.toNat < 128 := by
  simp only [isBlank, Bool.or_eq_true, beq_iff_eq] at h
  rcases h with (rfl | rfl) | rfl <;> decide

theorem toNat_lt_of_isWordChar (h : isWordChar c = true) : c.toNat < 128 := by
  have hranges : (decide (65 ≤ c.val ∧ c.val ≤ 90) ||
      (97 ≤ c.val && c.val ≤ 122) || (48 ≤ c.val && c.val ≤ 57)) ||
        c == '_' := h
  have hval : c.toNat = c.val.toNat := rfl
  simp only [UInt32.le_iff_toNat_le, UInt32.reduceToNat, Bool.or_eq_true,
    Bool.and_eq_true, decide_eq_true_eq, beq_iff_eq] at hranges
  rcases hranges with hletter | rfl
  · omega
  · decide

theorem cut_of_startsToken_false (hblank : isBlank c = false)
    (hc : ¬ StartsToken c) (hrest : c = '/' → NotAhead (· == '/') cs) :
    cut c cs = (.stray c, cs) := by
  have hword : ¬ isWordChar c = true := fun h => hc (.inl h)
  have hquote : c ≠ '"' := fun h => hc (.inr (.inl h))
  have hcolon : c ≠ ':' := by
    rintro rfl
    exact hc (.inr (.inr ⟨.colon, rfl⟩))
  have hmark : markOf? c = none := by
    cases h : markOf? c with
    | none => rfl
    | some kind =>
        exact absurd (.inr (.inr ⟨kind, (markOf?_eq_some_iff.mp h).1⟩)) hc
  by_cases hslash : c = '/'
  · subst hslash
    have hcut : cut '/' cs = cutSlash cs := rfl
    rw [hcut, cutSlash]
    intro tail htail
    simpa using hrest rfl '/' (by simp [htail])
  · rw [cut, if_neg (by simp [hblank]), if_neg hword, if_neg hquote,
      if_neg hslash, if_neg hcolon, hmark]

theorem mark_cut_eq {kind : TokenKind} (hmark : kind.mark ≠ [])
    (hrest : kind = .colon → NotAhead (· == ':') rest)
    (hcs : kind.mark ++ rest = c :: cs) : cut c cs = (.mark kind, rest) := by
  by_cases hcolon : kind = .colon
  · subst hcolon
    simp only [TokenKind.mark, List.cons_append, List.nil_append,
      List.cons.injEq] at hcs
    obtain ⟨rfl, rfl⟩ := hcs
    have hcut : cut ':' rest = cutColon rest := rfl
    rw [hcut, cutColon]
    intro tail htail
    simpa using hrest rfl ':' (by simp [htail])
  · cases kind with
    | colon => exact absurd rfl hcolon
    | identifier | literal | endOfInput => exact absurd rfl hmark
    | _ =>
        obtain ⟨rfl, rfl⟩ := List.cons.inj hcs
        rfl

theorem Piece.Fits.cut_eq (h : p.Fits rest)
    (hcs : p.spelling ++ rest = c :: cs) : cut c cs = (p, rest) := by
  cases h with
  | @blank run _ h hrest =>
      cases h with
      | blank hne hrun =>
          obtain ⟨b, run, rfl⟩ := List.exists_cons_of_ne_nil hne
          have htail : ∀ d ∈ run, isBlank d = true := fun d hd =>
            hrun d (List.mem_cons_of_mem _ hd)
          simp only [spelling, List.cons_append, List.cons.injEq] at hcs
          obtain ⟨rfl, rfl⟩ := hcs
          rw [cut, if_pos (hrun _ List.mem_cons_self),
            takeWhile_append_of_notAhead htail hrest,
            dropWhile_append_of_notAhead htail hrest]
  | @comment body _ h hrest =>
      cases h with
      | comment hbody =>
          have hall := forall_ne_of_not_mem hbody
          simp only [spelling, List.cons_append, List.cons.injEq] at hcs
          obtain ⟨rfl, rfl⟩ := hcs
          have hcut : cut '/' ('/' :: (body ++ rest)) =
              (.comment ((body ++ rest).takeWhile (· != '\n')),
                (body ++ rest).dropWhile (· != '\n')) := rfl
          rw [hcut, takeWhile_append_of_notAhead hall hrest,
            dropWhile_append_of_notAhead hall hrest]
  | @word letters _ h hrest =>
      cases h with
      | word hne hletters =>
          obtain ⟨b, letters, rfl⟩ := List.exists_cons_of_ne_nil hne
          have htail : ∀ d ∈ letters, isWordChar d = true := fun d hd =>
            hletters d (List.mem_cons_of_mem _ hd)
          have hb := hletters b List.mem_cons_self
          have hblank : ¬ isBlank b = true := by
            simp [isBlank_of_isWordChar hb]
          simp only [spelling, List.cons_append, List.cons.injEq] at hcs
          obtain ⟨rfl, rfl⟩ := hcs
          rw [cut, if_neg hblank, if_pos hb,
            takeWhile_append_of_notAhead htail hrest,
            dropWhile_append_of_notAhead htail hrest]
  | @literal body _ h =>
      cases h with
      | literal hbody =>
          have hall := forall_ne_of_not_mem hbody
          have hrest : NotAhead (· != '"') ('"' :: rest) := by
            simp [NotAhead]
          simp only [spelling, List.cons_append, List.append_assoc,
            List.nil_append, List.cons.injEq] at hcs
          obtain ⟨rfl, rfl⟩ := hcs
          have hcut : cut '"' (body ++ '"' :: rest) =
              cutLiteral (body ++ '"' :: rest) := rfl
          rw [hcut, cutLiteral, dropWhile_append_of_notAhead hall hrest,
            takeWhile_append_of_notAhead hall hrest]
  | @openLiteral body h =>
      cases h with
      | openLiteral hbody =>
          have hall := forall_ne_of_not_mem hbody
          simp only [spelling, List.append_nil, List.cons.injEq] at hcs
          obtain ⟨rfl, rfl⟩ := hcs
          have hcut : cut '"' body = cutLiteral body := rfl
          have hdrop : (body ++ []).dropWhile (· != '"') = [] :=
            dropWhile_append_of_notAhead hall (by simp [NotAhead])
          rw [List.append_nil] at hdrop
          rw [hcut, cutLiteral, hdrop]
  | mark h hrest =>
      cases h with
      | mark hmark => exact mark_cut_eq hmark hrest hcs
  | stray hc hblank hrest =>
      obtain ⟨rfl, rfl⟩ := List.cons.inj hcs
      exact cut_of_startsToken_false hblank hc hrest

theorem Piece.Fits.spelling_ne_nil (h : p.Fits rest) : p.spelling ≠ [] := by
  cases h with
  | blank h => cases h with | blank hne => exact hne
  | word h => cases h with | word hne => exact hne
  | mark h => cases h with | mark hmark => exact hmark
  | _ => exact List.cons_ne_nil _ _

theorem Piece.Fits.pieces_append (h : p.Fits rest) :
    pieces (p.spelling ++ rest) = p :: pieces rest := by
  obtain ⟨c, cs, hcs⟩ := List.exists_cons_of_ne_nil h.spelling_ne_nil
  have hfront : p.spelling ++ rest = c :: (cs ++ rest) := by
    rw [hcs, List.cons_append]
  rw [hfront, pieces_cons, h.cut_eq hfront]

/-- Every text is empty or starts with a piece that fits. -/
theorem text_cases (cs : List Char) :
    cs = [] ∨ ∃ p rest, cs = p.spelling ++ rest ∧ Piece.Fits p rest ∧
      rest.length < cs.length := by
  cases cs with
  | nil => exact .inl rfl
  | cons c cs =>
      exact .inr ⟨_, _, (spelling_cut c cs).symm, fits_cut c cs,
        cut_length_lt c cs⟩

/-! ## Longest matches -/

theorem Piece.Fits.declared_or_stray (h : p.Fits rest) :
    p.Declared ∨ ∃ c, p = .stray c := by
  cases h with
  | stray => exact .inr ⟨_, rfl⟩
  | _ h => exact .inl h

theorem exists_cons_of_not_notAhead {q : Char → Bool} (h : ¬ NotAhead q rest) :
    ∃ d tail, rest = d :: tail ∧ q d = true := by
  cases rest with
  | nil => exact absurd nofun h
  | cons d tail => exact ⟨d, tail, rfl, by simpa [NotAhead] using h⟩

theorem forall_mem_concat {q : Char → Prop} {d : Char}
    (hcs : ∀ c ∈ cs, q c) (hd : q d) : ∀ c ∈ cs ++ [d], q c := by
  intro c hc
  rcases List.mem_append.mp hc with hc | hc
  · exact hcs c hc
  · exact List.mem_singleton.mp hc ▸ hd

/-- A match that does not fit can be made longer. -/
theorem Piece.Declared.longer (h : p.Declared) (hfits : ¬ p.Fits rest) :
    ∃ q tail, Declared q ∧ q.spelling ++ tail = p.spelling ++ rest ∧
      tail.length < rest.length := by
  cases h with
  | @blank run hne hrun =>
      obtain ⟨d, tail, rfl, hd⟩ := exists_cons_of_not_notAhead fun hrest =>
        hfits (.blank (.blank hne hrun) hrest)
      have hlonger := forall_mem_concat hrun hd
      exact ⟨.blank (run ++ [d]), tail, .blank (by simp) hlonger,
        by simp [spelling], by simp⟩
  | @comment body hbody =>
      obtain ⟨d, tail, rfl, hd⟩ := exists_cons_of_not_notAhead fun hrest =>
        hfits (.comment (.comment hbody) hrest)
      have hline : d ≠ '\n' := by simpa using hd
      have hlonger : '\n' ∉ body ++ [d] := by simp [hbody, hline.symm]
      exact ⟨.comment (body ++ [d]), tail, .comment hlonger,
        by simp [spelling], by simp⟩
  | @word letters hne hletters =>
      obtain ⟨d, tail, rfl, hd⟩ := exists_cons_of_not_notAhead fun hrest =>
        hfits (.word (.word hne hletters) hrest)
      have hlonger := forall_mem_concat hletters hd
      exact ⟨.word (letters ++ [d]), tail, .word (by simp) hlonger,
        by simp [spelling], by simp⟩
  | literal hbody => exact absurd (.literal (.literal hbody)) hfits
  | @openLiteral body hbody =>
      cases rest with
      | nil => exact absurd (.openLiteral (.openLiteral hbody)) hfits
      | cons d tail =>
          by_cases hd : d = '"'
          · subst hd
            exact ⟨.literal body, tail, .literal hbody, by simp [spelling],
              by simp⟩
          · have hlonger : '"' ∉ body ++ [d] := by simp [hbody, Ne.symm hd]
            exact ⟨.openLiteral (body ++ [d]), tail, .openLiteral hlonger,
              by simp [spelling], by simp⟩
  | @mark kind hmark =>
      by_cases hcolon : kind = .colon
      · subst hcolon
        obtain ⟨d, tail, rfl, hd⟩ := exists_cons_of_not_notAhead fun hrest =>
          hfits (.mark (.mark hmark) fun _ => hrest)
        obtain rfl : d = ':' := by simpa using hd
        exact ⟨.mark .namespaces, tail, .mark (by decide), rfl, by simp⟩
      · exact absurd (.mark (.mark hmark) fun h => absurd h hcolon) hfits

/-- Every match is the start of one that fits. -/
theorem Piece.Declared.exists_fits (h : p.Declared) (rest : List Char) :
    ∃ q tail, Declared q ∧ q.Fits tail ∧
      q.spelling ++ tail = p.spelling ++ rest ∧
      (q = p ∨ p.spelling.length < q.spelling.length) := by
  induction hlength : rest.length using Nat.strongRecOn generalizing p rest with
  | ind n ih =>
      by_cases hfits : p.Fits rest
      · exact ⟨p, rest, h, hfits, rfl, .inl rfl⟩
      · obtain ⟨q, tail, hq, hqtail, hlt⟩ := h.longer hfits
        obtain ⟨r, tail', hr, hrfits, hrtail, hlonger⟩ :=
          ih tail.length (hlength ▸ hlt) hq tail rfl
        have hsum := congrArg List.length hqtail
        simp only [List.length_append] at hsum
        refine ⟨r, tail', hr, hrfits, hrtail.trans hqtail, .inr ?_⟩
        rcases hlonger with rfl | hlonger
        · omega
        · omega

/-- The piece that is cut is the only longest match, or a single character
where no pattern matches. -/
theorem cut_longest (c : Char) (cs : List Char) :
    ((cut c cs).1.Declared ∧ ∀ q : Piece, q.Declared →
      q.spelling <+: c :: cs →
        q = (cut c cs).1 ∨ q.spelling.length < (cut c cs).1.spelling.length) ∨
    ((cut c cs).1 = .stray c ∧ ∀ q : Piece, q.Declared →
      ¬ q.spelling <+: c :: cs) := by
  have hmatch : ∀ q : Piece, q.Declared → q.spelling <+: c :: cs →
      (cut c cs).1.Declared ∧
        (q = (cut c cs).1 ∨
          q.spelling.length < (cut c cs).1.spelling.length) := by
    rintro q hq ⟨rest, hrest⟩
    obtain ⟨r, tail, hr, hfits, htail, hlonger⟩ := hq.exists_fits rest
    rw [hfits.cut_eq (htail.trans hrest)]
    exact ⟨hr, hlonger.imp Eq.symm id⟩
  rcases (fits_cut c cs).declared_or_stray with hdeclared | ⟨d, hd⟩
  · exact .inl ⟨hdeclared, fun q hq hprefix => (hmatch q hq hprefix).2⟩
  · have hspelling := spelling_cut c cs
    rw [hd] at hspelling hmatch
    obtain ⟨rfl, -⟩ := List.cons.inj hspelling
    exact .inr ⟨hd, fun q hq hprefix => nomatch (hmatch q hq hprefix).1⟩

end

end Idl
