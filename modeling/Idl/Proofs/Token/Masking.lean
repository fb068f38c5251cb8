import Idl.Proofs.Text.Masking
import Idl.Proofs.Token.Concatenation
import Mathlib.Data.List.Forall2

/-!
# Lexing masked bytes

Characters that are not ASCII never start or end a token: in code they start
nothing, and in comments and literals they are skipped.  The dash is such a
character too, so a text that has dashes in their place is cut into the same
pieces, apart from dashes that stand in code one by one, and lexing it gives
tokens of the same kinds.  Words and marks are spelled alike, and literals
differ in dashes and in characters that are not ASCII only.
-/

namespace Idl

open Text

/-- ASCII characters other than the dash. -/
def isPlain (c : Char) : Bool := c.toNat < 128 && c != '-'

def plainChars (cs : List Char) : List Char := cs.filter isPlain

structure Token.Resembles (t u : Token) : Prop where
  kind : t.kind = u.kind
  text : t.kind ≠ .literal → t.text = u.text
  literal : t.kind = .literal →
    plainChars t.text.toList = plainChars u.text.toList

/-- Lexing comes to the same fault, or to tokens that resemble each other one
by one. -/
inductive Resembling : Except LexError (List Token) →
    Except LexError (List Token) → Prop where
  | error {e f : LexError} (h : e.fault = f.fault) :
      Resembling (.error e) (.error f)
  | ok {ts us : List Token} (h : List.Forall₂ Token.Resembles ts us) :
      Resembling (.ok ts) (.ok us)

/-- The pieces only differ in characters that are not plain. -/
inductive Piece.Resembles : Piece → Piece → Prop where
  | same (p : Piece) : Resembles p p
  | comment (body body' : List Char) :
      Resembles (.comment body) (.comment body')
  | literal {body body' : List Char}
      (h : plainChars body = plainChars body') :
      Resembles (.literal body) (.literal body')
  | openLiteral (body body' : List Char) :
      Resembles (.openLiteral body) (.openLiteral body')

section
variable {c d : Char} {cs ds front rest : List Char} {q : Char → Bool}

/-! ## Texts with dashes -/

theorem Text.Dashed.split (h : Dashed (front ++ rest) ds) :
    ∃ front' rest', ds = front' ++ rest' ∧ Dashed front front' ∧
      Dashed rest rest' := by
  induction front generalizing ds with
  | nil => exact ⟨[], ds, rfl, .nil, h⟩
  | cons c front ih =>
      cases h with
      | ascii hc h =>
          obtain ⟨front', rest', rfl, hfront, hrest⟩ := ih h
          exact ⟨c :: front', rest', rfl, .ascii hc hfront, hrest⟩
      | wide n hc h =>
          obtain ⟨front', rest', rfl, hfront, hrest⟩ := ih h
          exact ⟨_, rest', (List.append_assoc _ _ _).symm, .wide n hc hfront,
            hrest⟩

theorem Text.Dashed.uncons (h : Dashed (c :: cs) ds) (hc : c.toNat < 128) :
    ∃ ds', ds = c :: ds' ∧ Dashed cs ds' := by
  cases h with
  | ascii _ h => exact ⟨_, rfl, h⟩
  | wide n hwide => omega

theorem Text.Dashed.eq_of_ascii (h : Dashed cs ds)
    (hcs : ∀ c ∈ cs, c.toNat < 128) : ds = cs := by
  induction h with
  | nil => rfl
  | ascii _ _ ih => rw [ih fun c hc => hcs c (List.mem_cons_of_mem _ hc)]
  | wide n hc _ =>
      have hlt := hcs _ List.mem_cons_self
      omega

theorem Text.Dashed.eq_nil_iff (h : Dashed cs ds) : cs = [] ↔ ds = [] := by
  cases h <;> simp [List.replicate_succ]

/-- A class that takes the dash for a character that is not ASCII does not
tell the texts apart. -/
theorem Text.Dashed.notAhead (h : Dashed cs ds)
    (hq : ∀ c : Char, 128 ≤ c.toNat → q c = q '-') (hcs : NotAhead q cs) :
    NotAhead q ds := by
  cases h with
  | nil => exact hcs
  | ascii => exact hcs
  | @wide c _ _ n hc _ =>
      have hdash : q '-' = false := (hq c hc).symm.trans (hcs c rfl)
      simpa [NotAhead, List.replicate_succ] using hdash

theorem Text.Dashed.notAhead_of_ascii (h : Dashed cs ds)
    (hq : ∀ c, q c = true → c.toNat < 128) (hdash : q '-' = false)
    (hcs : NotAhead q cs) : NotAhead q ds := by
  refine h.notAhead (fun c hc => ?_) hcs
  rw [hdash]
  refine Bool.eq_false_iff.mpr fun hqc => ?_
  have hlt := hq c hqc
  omega

theorem Text.Dashed.notAhead_beq (h : Dashed cs ds) (hd : isPlain d = true)
    (hcs : NotAhead (· == d) cs) : NotAhead (· == d) ds := by
  rw [isPlain, Bool.and_eq_true, decide_eq_true_iff, bne_iff_ne] at hd
  refine h.notAhead_of_ascii (fun c hc => ?_) ?_ hcs
  · rw [beq_iff_eq.mp hc]
    exact hd.1
  · exact beq_eq_false_iff_ne.mpr hd.2.symm

theorem plainChars_replicate (n : Nat) :
    plainChars (List.replicate n '-') = [] :=
  List.filter_replicate_of_neg (by decide)

theorem Text.Dashed.plainChars_eq (h : Dashed cs ds) :
    plainChars cs = plainChars ds := by
  unfold plainChars at *
  induction h with
  | nil => rfl
  | ascii _ _ ih => rw [List.filter_cons, List.filter_cons, ih]
  | @wide c cs ds n hc _ ih =>
      have hwide : ¬ isPlain c = true := by
        simp [isPlain, Nat.not_lt.mpr hc]
      have hdashes := plainChars_replicate (n + 1)
      rw [plainChars] at hdashes
      rw [List.filter_cons_of_neg hwide, List.filter_append, hdashes, ih,
        List.nil_append]

theorem Text.Dashed.notMem (h : Dashed cs ds) (hd : isPlain d = true)
    (hcs : d ∉ cs) : d ∉ ds := by
  intro hmem
  have hplain : d ∈ plainChars ds := List.mem_filter.mpr ⟨hmem, hd⟩
  rw [← h.plainChars_eq] at hplain
  exact hcs (List.mem_filter.mp hplain).1

end

/-! ## Pieces with dashes -/

section
variable {c : Char} {cs ds spelling rest rest' : List Char} {p q : Piece}

theorem not_startsToken_dash : ¬ StartsToken '-' := by
  rintro (hword | hquote | ⟨kind, hkind⟩)
  · exact absurd hword (by decide)
  · exact absurd hquote (by decide)
  · cases kind <;> simp [TokenKind.mark] at hkind

theorem fits_dash (rest : List Char) : Piece.Fits (.stray '-') rest :=
  .stray not_startsToken_dash rfl nofun

theorem mark_ascii {kind : TokenKind} (h : c ∈ kind.mark) : c.toNat < 128 := by
  revert h
  cases kind <;> simp [TokenKind.mark] <;> rintro rfl <;> decide

/-- A piece with dashes in it is a piece again, or a character that starts
nothing and becomes dashes. -/
theorem Piece.Fits.dashed (h : p.Fits rest) (hspelling : Dashed p.spelling cs)
    (hrest : Dashed rest rest') :
    (∃ c n, p = .stray c ∧ cs = List.replicate (n + 1) '-') ∨
      ∃ q, Piece.Resembles p q ∧ q.spelling = cs ∧ q.Fits rest' := by
  cases h with
  | @blank run _ h hahead =>
      cases id h with
      | blank hne hrun =>
          have hascii := hspelling.eq_of_ascii fun c hc =>
            toNat_lt_of_isBlank (hrun c hc)
          exact .inr ⟨_, .same _, hascii.symm, .blank h
            (hrest.notAhead_of_ascii (fun _ => toNat_lt_of_isBlank) rfl hahead)⟩
  | @comment body _ h hahead =>
      cases h with
      | comment hbody =>
          obtain ⟨cs, rfl, hinner⟩ := hspelling.uncons (by decide)
          obtain ⟨body', rfl, hdashed⟩ := hinner.uncons (by decide)
          have hbody' := hdashed.notMem (by decide) hbody
          refine .inr ⟨_, .comment body body', rfl, .comment (.comment hbody')
            (hrest.notAhead (fun c hc => ?_) hahead)⟩
          have hline : c ≠ '\n' := by
            rintro rfl
            exact absurd hc (by decide)
          simpa using hline
  | @word letters _ h hahead =>
      cases id h with
      | word hne hletters =>
          have hascii := hspelling.eq_of_ascii fun c hc =>
            toNat_lt_of_isWordChar (hletters c hc)
          exact .inr ⟨_, .same _, hascii.symm, .word h
            (hrest.notAhead_of_ascii (fun _ => toNat_lt_of_isWordChar) rfl
              hahead)⟩
  | @literal body _ h =>
      cases h with
      | literal hbody =>
          obtain ⟨cs, rfl, hinner⟩ := hspelling.uncons (by decide)
          obtain ⟨body', last, rfl, hdashed, hlast⟩ := hinner.split
          have hquote := hlast.eq_of_ascii
            (List.forall_mem_singleton.mpr (by decide))
          have hbody' := hdashed.notMem (by decide) hbody
          exact .inr ⟨_, .literal hdashed.plainChars_eq, by rw [hquote]; rfl,
            .literal (.literal hbody')⟩
  | @openLiteral body h =>
      cases h with
      | openLiteral hbody =>
          obtain ⟨body', rfl, hdashed⟩ := hspelling.uncons (by decide)
          have hbody' := hdashed.notMem (by decide) hbody
          obtain rfl := hrest.eq_nil_iff.mp rfl
          exact .inr ⟨_, .openLiteral body body', rfl,
            .openLiteral (.openLiteral hbody')⟩
  | @mark kind _ h hahead =>
      have hascii := hspelling.eq_of_ascii fun c hc => mark_ascii hc
      exact .inr ⟨_, .same _, hascii.symm, .mark h fun hkind =>
        hrest.notAhead_beq (by decide) (hahead hkind)⟩
  | @stray c _ hc hblank hslash =>
      cases hspelling with
      | ascii hlt h =>
          obtain rfl := h.eq_nil_iff.mp rfl
          exact .inr ⟨_, .same _, rfl, .stray hc hblank fun h =>
            hrest.notAhead_beq (by decide) (hslash h)⟩
      | wide n hwide h =>
          obtain rfl := h.eq_nil_iff.mp rfl
          exact .inl ⟨c, n, rfl, List.append_nil _⟩

/-! ## Lexing with dashes -/

theorem Piece.Resembles.fault?_eq (h : p.Resembles q) {ps qs : List Piece}
    (hempty : ps = [] ↔ qs = []) : p.fault? ps = q.fault? qs := by
  cases h with
  | same p => cases p <;> simp [Piece.fault?, hempty]
  | comment | literal | openLiteral => rfl

theorem Piece.Resembles.token? (h : p.Resembles q) (span span' : Span) :
    List.Forall₂ Token.Resembles (p.token? span).toList
      (q.token? span').toList := by
  cases h with
  | same p =>
      cases p with
      | word | literal | mark =>
          exact .cons ⟨rfl, fun _ => rfl, fun _ => rfl⟩ .nil
      | _ => exact .nil
  | comment | openLiteral => exact .nil
  | literal h =>
      refine .cons ⟨rfl, fun hkind => absurd rfl hkind, fun _ => ?_⟩ .nil
      rwa [String.toList_ofList, String.toList_ofList]

theorem Resembling.map {r s : Except LexError (List Token)}
    {ts us : List Token} (h : Resembling r s)
    (hfront : List.Forall₂ Token.Resembles ts us) :
    Resembling (r.map (ts ++ ·)) (s.map (us ++ ·)) := by
  cases h with
  | error h => exact .error h
  | ok h => exact .ok (List.rel_append hfront h)

theorem tokensFrom_dashes (n start : Nat) (rest : List Char) :
    tokensFrom [] start (pieces (List.replicate n '-' ++ rest)) =
      tokensFrom [] (start + n) (pieces rest) := by
  induction n generalizing start with
  | zero => rfl
  | succ n ih =>
      have hdash : pieces ('-' :: (List.replicate n '-' ++ rest)) =
          .stray '-' :: pieces (List.replicate n '-' ++ rest) :=
        (fits_dash _).pieces_append
      have hnext := ih (start + 1)
      rw [Nat.add_assoc, Nat.add_comm 1 n] at hnext
      rw [List.replicate_succ, List.cons_append, hdash, ← hnext]
      rfl

theorem pieces_eq_nil_iff : pieces cs = [] ↔ cs = [] := by
  cases cs with
  | nil => simp
  | cons c cs => simp [pieces_cons]

/-- Texts that differ in dashes are lexed alike, wherever they start. -/
theorem resembling_tokensFrom (h : Dashed cs ds) (start start' : Nat) :
    Resembling (tokensFrom [] start (pieces cs))
      (tokensFrom [] start' (pieces ds)) := by
  induction hlength : cs.length using Nat.strongRecOn
    generalizing start start' cs ds with
  | ind n ih =>
      rcases text_cases cs with rfl | ⟨p, rest, rfl, hfits, hlt⟩
      · obtain rfl := h.eq_nil_iff.mp rfl
        rw [pieces_nil]
        exact .ok .nil
      · obtain ⟨front', rest', rfl, hspelling, hrest⟩ := h.split
        have hbehind := fun start start' =>
          ih rest.length (hlength ▸ hlt) hrest start start' rfl
        rw [hfits.pieces_append]
        rcases hfits.dashed hspelling hrest with ⟨c, k, rfl, rfl⟩ |
          ⟨q, hlike, rfl, hfits'⟩
        -- One piece here and one for each dash there, all without a token.
        · rw [tokensFrom_dashes]
          exact hbehind _ _
        · have hempty : pieces rest = [] ↔ pieces rest' = [] := by
            rw [pieces_eq_nil_iff, pieces_eq_nil_iff, hrest.eq_nil_iff]
          rw [hfits'.pieces_append, tokensFrom_cons, tokensFrom_cons,
            hlike.fault?_eq hempty]
          cases q.fault? (pieces rest') with
          | some fault => exact .error rfl
          | none => exact (hbehind _ _).map (hlike.token? _ _)

/-- Masking bytes that are not ASCII makes no difference to the tokens but in
the texts of literals. -/
theorem lexBytes_masked (bs : List UInt8) :
    bytes (masked bs) = bs.map maskByte ∧
      Resembling (lexBytes bs) (lex (masked bs)) :=
  ⟨bytes_masked bs, resembling_tokensFrom (dashed_decode bs) 0 0⟩

end

end Idl
