import Idl.Proofs.Rendering.Render
import Idl.Proofs.Token.Lexed

/-!
# Phrases as text

A text has a phrase at its front if it is lexed to tokens that have it there.
The text is cut as far as possible at every point, so what follows a phrase
matters: a word has to end where it is meant to, and an optional part that is
missing must not stand in front of the rest.  All this is said of the rest as
text, so texts are put together from behind.
-/

namespace Idl.Grammar

/-- The phrase stands at the front of the text and leaves the rest. -/
def Written (p : Phrase) (cs rest : List Char) : Prop :=
  ∀ start, ∃ stop, ∀ us, Lexed stop rest us → ∃ ts, Lexed start cs ts ∧ p ts us

/-! ## Looking ahead -/

/-- The text starts with a token of the given kind and text. -/
def Opens (kind : TokenKind) (text : String) (cs : List Char) : Prop :=
  ∀ start ts, Lexed start cs ts →
    ∃ t us, ts = t :: us ∧ t.kind = kind ∧ t.text = text

/-- The next token of the text is of another kind. -/
def Without (kind : TokenKind) (cs : List Char) : Prop :=
  ∀ start ts, Lexed start cs ts → ¬ Ahead kind ts

def WithoutWord (word : String) (cs : List Char) : Prop :=
  ∀ start ts, Lexed start cs ts → ¬ AheadWord word ts

theorem next?_cons_of_ne {t : Token} {ts : List Token}
    (h : t.kind ≠ .endLine) : next? (t :: ts) = some t := by
  simp [next?, h]

section
variable {kind other : TokenKind} {text word : String} {cs rest : List Char}
  {p : Piece}

theorem opens_of_pieces (hpieces : pieces cs = p :: pieces rest)
    (hfault : p.fault? (pieces rest) = none)
    (htoken : ∀ span, p.token? span = some ⟨kind, text, span⟩) :
    Opens kind text cs := by
  intro start ts h
  rcases (lexed_iff_of_pieces hpieces hfault).mp h with ⟨us, -, rfl⟩
  rw [htoken]
  exact ⟨_, us, rfl, rfl, rfl⟩

theorem Opens.blank (h : Opens kind text cs) : Opens kind text (' ' :: cs) :=
  fun start ts hts => h (start + 1) ts ((lexed_blank rfl).mp hts)

theorem Opens.without (h : Opens kind text cs) (hline : kind ≠ .endLine)
    (hother : kind ≠ other) : Without other cs := by
  intro start ts hts hparts
  rcases hparts with ⟨u, hnext, hkind⟩
  obtain ⟨t, us, rfl, rfl, -⟩ := h start ts hts
  rw [next?_cons_of_ne hline] at hnext
  cases hnext
  exact hother hkind

theorem Opens.withoutWord (h : Opens kind text cs) (hline : kind ≠ .endLine)
    (hword : kind ≠ .identifier ∨ text ≠ word) : WithoutWord word cs := by
  intro start ts hts hparts
  rcases hparts with ⟨u, hnext, hisWord⟩
  obtain ⟨t, us, rfl, rfl, rfl⟩ := h start ts hts
  rw [next?_cons_of_ne hline] at hnext
  cases hnext
  simp only [Token.isWord, Bool.and_eq_true, beq_iff_eq] at hisWord
  exact hword.elim (absurd hisWord.1) (absurd hisWord.2)

end

/-! ## Composition -/

section
variable {p q : Phrase} {cs mid rest : List Char}

theorem Written.imp (h : Written p cs rest) (himp : ∀ a b, p a b → q a b) :
    Written q cs rest := by
  intro start
  obtain ⟨stop, hwritten⟩ := h start
  refine ⟨stop, fun us hus => ?_⟩
  obtain ⟨ts, hts, hp⟩ := hwritten us hus
  exact ⟨ts, hts, himp ts us hp⟩

theorem Written.seq (hp : Written p cs mid) (hq : Written q mid rest) :
    Written (fun a c => ∃ b, p a b ∧ q b c) cs rest := by
  intro start
  obtain ⟨middle, hfirst⟩ := hp start
  obtain ⟨stop, hsecond⟩ := hq middle
  refine ⟨stop, fun vs hvs => ?_⟩
  obtain ⟨us, hus, hqs⟩ := hsecond vs hvs
  obtain ⟨ts, hts, hps⟩ := hfirst us hus
  exact ⟨ts, hts, us, hps, hqs⟩

theorem Written.blank (h : Written p cs rest) : Written p (' ' :: cs) rest := by
  intro start
  obtain ⟨stop, hwritten⟩ := h (start + 1)
  refine ⟨stop, fun us hus => ?_⟩
  obtain ⟨ts, hts, hp⟩ := hwritten us hus
  exact ⟨ts, (lexed_blank rfl).mpr hts, hp⟩

theorem Written.trim (h : Written p cs (' ' :: rest)) : Written p cs rest := by
  intro start
  obtain ⟨stop, hwritten⟩ := h start
  exact ⟨stop + 1, fun us hus => hwritten us ((lexed_blank rfl).mpr hus)⟩

theorem written_empty (h : ∀ start ts, Lexed start cs ts → p ts ts) :
    Written p cs cs :=
  fun start => ⟨start, fun ts hts => ⟨ts, hts, h start ts hts⟩⟩

/-- An empty phrase that tells what does not come next. -/
theorem written_without {kind : TokenKind} (h : Without kind cs) :
    Written (fun a b => a = b ∧ ¬ Ahead kind a) cs cs :=
  written_empty fun start ts hts => ⟨rfl, h start ts hts⟩

end

/-! ## Terminals -/

section
variable {cs rest : List Char} {p : Piece} {kind : TokenKind} {text : String}

/-- A single token, without line ends behind it. -/
def One (kind : TokenKind) (text : String) : Phrase := fun a b =>
  ∃ t, a = t :: b ∧ t.kind = kind ∧ t.text = text

theorem written_one (hpieces : pieces cs = p :: pieces rest)
    (hfault : p.fault? (pieces rest) = none)
    (htoken : ∀ span, p.token? span = some ⟨kind, text, span⟩) :
    Written (One kind text) cs rest := by
  intro start
  refine ⟨start + Text.byteLength p.spelling, fun us hus => ?_⟩
  refine ⟨_, (lexed_iff_of_pieces hpieces hfault).mpr ⟨us, hus, rfl⟩, ?_⟩
  rw [htoken]
  exact ⟨_, rfl, rfl, rfl⟩

theorem One.terminal {a b : List Token} (h : One kind text a b) :
    Terminal kind text a b := by
  rcases h with ⟨t, rfl, hkind, htext⟩
  have hnone : LineEnds [] := fun t ht => by cases ht
  exact .intro hkind htext hnone

theorem pieces_mark {c : Char} (hcut : cut c cs = (.mark kind, rest)) :
    pieces (c :: cs) = .mark kind :: pieces rest := by
  rw [pieces_cons, hcut]

theorem written_mark {c : Char} (hcut : cut c cs = (.mark kind, rest)) :
    Written (Mark kind) (c :: cs) rest := by
  have hone : Written (One kind "") (c :: cs) rest :=
    written_one (pieces_mark hcut) rfl fun _ => rfl
  exact hone.imp fun a b h => ⟨"", h.terminal⟩

theorem Without.line {other : TokenKind} (h : Without other cs) :
    Without other ('\n' :: cs) := by
  intro start ts hts hparts
  rcases hparts with ⟨u, hnext, hkind⟩
  have hpieces : pieces ('\n' :: cs) = .mark .endLine :: pieces cs :=
    pieces_mark rfl
  rcases (lexed_iff_of_pieces hpieces rfl).mp hts with ⟨us, hus, rfl⟩
  exact h _ us hus ⟨u, hnext, hkind⟩

theorem opens_mark {c : Char} (hcut : cut c cs = (.mark kind, rest)) :
    Opens kind "" (c :: cs) :=
  opens_of_pieces (pieces_mark hcut) rfl fun _ => rfl

/-- A mark in front that the phrase passes over. -/
theorem Written.behindMark {q r : Phrase} {c : Char} {mid : List Char}
    (h : Written q mid rest) (hcut : cut c cs = (.mark kind, mid))
    (hskip : ∀ t a b, t.kind = kind → q a b → r (t :: a) b) :
    Written r (c :: cs) rest := by
  intro start
  obtain ⟨stop, hwritten⟩ :=
    h (start + Text.byteLength (Piece.mark kind).spelling)
  refine ⟨stop, fun us hus => ?_⟩
  obtain ⟨ts, hts, hq⟩ := hwritten us hus
  exact ⟨_, (lexed_iff_of_pieces (pieces_mark hcut) rfl).mpr ⟨ts, hts, rfl⟩,
    hskip _ ts us rfl hq⟩

theorem takeWhile_of_breaks (h : Breaks rest) :
    rest.takeWhile isWordChar = [] ∧ rest.dropWhile isWordChar = rest := by
  cases rest with
  | nil => exact h.elim
  | cons d rest =>
      have hd : ¬ isWordChar d = true := by
        rw [Breaks] at h
        simp [h]
      exact ⟨List.takeWhile_cons_of_neg hd, List.dropWhile_cons_of_neg hd⟩

theorem pieces_word {w : String} (hw : IsIdent w) (hrest : Breaks rest) :
    pieces (w.toList ++ rest) = .word w.toList :: pieces rest := by
  have hne : w.toList ≠ [] := fun h =>
    hw.ne_empty (String.toList_eq_nil_iff.mp h)
  exact (Piece.Fits.word (.word hne hw.wordChar) hrest.notAhead).pieces_append

theorem written_oneWord {w : String} (hw : IsIdent w) (hrest : Breaks rest) :
    Written (One .identifier w) (put w rest) rest :=
  written_one (pieces_word hw hrest) (fault?_word _ hrest) fun span => by
    rw [Piece.token?, String.ofList_toList]

theorem written_word {w : String} (hw : IsIdent w) (hrest : Breaks rest) :
    Written (Word w) (put w rest) rest :=
  (written_oneWord hw hrest).imp fun _ _ h => h.terminal

theorem opens_word {w : String} (hw : IsIdent w) (hrest : Breaks rest) :
    Opens .identifier w (w.toList ++ rest) :=
  opens_of_pieces (pieces_word hw hrest) (fault?_word _ hrest) fun span => by
    rw [Piece.token?, String.ofList_toList]

theorem pieces_literal {body : List Char} (hbody : '"' ∉ body) :
    pieces ('"' :: (body ++ '"' :: rest)) = .literal body :: pieces rest := by
  have hfits : Piece.Fits (.literal body) rest := .literal (.literal hbody)
  simpa [Piece.spelling] using hfits.pieces_append

theorem written_literal {body : List Char} (hbody : '"' ∉ body) :
    Written (Literal (String.ofList body))
      ('"' :: (body ++ '"' :: rest)) rest := by
  have hone : Written (One .literal (String.ofList body))
      ('"' :: (body ++ '"' :: rest)) rest :=
    written_one (pieces_literal hbody) rfl fun _ => rfl
  exact hone.imp fun _ _ h => h.terminal

end

end Idl.Grammar
