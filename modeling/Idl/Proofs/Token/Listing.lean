import Idl.Proofs.Listing.Sections
import Idl.Token.Listing
import Mathlib.Data.List.Nodup

/-!
# Token listings, read back

The label of a kind is made of letters and an offset of digits, so each ends at
the mark behind it.  A text is shown in quotes, and a quote inside it has a
backslash in front; that a token has no text is told by the mark behind its
label.  Offsets come last and a line end follows them, so the lines of a listing
are read one behind the other, whatever the texts of the tokens are.
-/

namespace Idl

open Text

/-! ## Offsets -/

section
variable {m n : Nat} {c d : Char} {r s : List Char}

theorem isDigit_of_mem_repr (h : c ∈ n.repr.toList) : c.isDigit = true := by
  rw [Nat.toList_repr] at h
  exact Nat.isDigit_of_mem_toDigits (by omega) (by omega) h

theorem repr_append_inj (hc : c.isDigit = false) (hd : d.isDigit = false)
    (h : m.repr.toList ++ c :: r = n.repr.toList ++ d :: s) :
    m = n ∧ c :: r = d :: s := by
  have hparts := append_inj_of_stop (fun _ => isDigit_of_mem_repr)
    (fun _ => isDigit_of_mem_repr) hc hd h
  exact ⟨repr_inj (String.toList_inj.mp hparts.1), hparts.2⟩

/-- The first offset ends at the dots and the second at the line end. -/
theorem Span.text_append_inj {p q : Span}
    (h : p.text.toList ++ '\n' :: r = q.text.toList ++ '\n' :: s) :
    p = q ∧ r = s := by
  simp only [Span.text, String.toList_append, List.append_assoc] at h
  change p.start.repr.toList ++
      '.' :: '.' :: (p.stop.repr.toList ++ '\n' :: r) =
    q.start.repr.toList ++
      '.' :: '.' :: (q.stop.repr.toList ++ '\n' :: s) at h
  have hstart := repr_append_inj (by decide) (by decide) h
  simp only [List.cons.injEq, true_and] at hstart
  have hstop := repr_append_inj (by decide) (by decide) hstart.2
  rcases p with ⟨start, stop⟩
  rcases q with ⟨start', stop'⟩
  exact ⟨congrArg₂ Span.mk hstart.1 hstop.1, (List.cons.inj hstop.2).2⟩

end

/-! ## Kinds -/

namespace TokenKind

def kinds : List TokenKind :=
  [identifier, hash, literal, colon, namespaces, semicolon, openBrace,
   closeBrace, openSquare, closeSquare, openRound, closeRound, equals, endLine,
   comma, less, greater, endOfInput]

theorem mem_kinds (kind : TokenKind) : kind ∈ kinds := by
  cases kind <;> simp [kinds]

theorem label_injective : Function.Injective label := by
  have hnodup : (kinds.map label).Nodup := by decide
  intro kind kind' h
  exact List.inj_on_of_nodup_map hnodup (mem_kinds kind) (mem_kinds kind') h

theorem isAlpha_of_mem_label {kind : TokenKind} {c : Char}
    (h : c ∈ kind.label.toList) : c.isAlpha = true := by
  have hall : (kinds.all fun kind => kind.label.toList.all Char.isAlpha) =
      true := by
    decide
  have hkind := List.all_eq_true.mp hall kind (mem_kinds kind)
  exact List.all_eq_true.mp hkind c h

end TokenKind

/-! ## Tokens -/

namespace Token

/-- What stands between the label and the place of a token. -/
def shownText (text : String) : List Char :=
  if text = "" then [] else '(' :: ((quoted text).toList ++ [')'])

theorem toList_listing (t : Token) (rest : List Char) :
    t.listing.toList ++ rest = t.kind.label.toList ++ (shownText t.text ++
      ' ' :: '@' :: ' ' :: (t.span.text.toList ++ rest)) := by
  unfold listing shownText
  split <;> simp

section
variable {v w : String} {r s : List Char}

/-- The mark in front tells whether there is a text, and the quotes tell where
it ends. -/
theorem shownText_append_inj
    (h : shownText v ++ ' ' :: r = shownText w ++ ' ' :: s) :
    v = w ∧ r = s := by
  unfold shownText at h
  by_cases hv : v = ""
  · by_cases hw : w = ""
    · simp only [hv, hw, if_true, List.nil_append, List.cons.injEq,
        true_and] at h
      exact ⟨hv.trans hw.symm, h⟩
    · simp [hv, hw] at h
  · by_cases hw : w = ""
    · simp [hv, hw] at h
    · simp only [hv, hw, if_false, List.cons_append, List.append_assoc,
        List.nil_append, List.cons.injEq, true_and] at h
      have htext := quoted_append_inj h
      simp only [List.cons.injEq, true_and] at htext
      exact htext

/-- Behind a label there is no letter. -/
theorem exists_cons_shownText (text : String) (rest : List Char) :
    ∃ c cs, shownText text ++ ' ' :: rest = c :: cs ∧ c.isAlpha = false := by
  unfold shownText
  split
  · exact ⟨' ', rest, rfl, by decide⟩
  · exact ⟨'(', _, rfl, by decide⟩

/-- A token in a line of its own, whatever lines stand behind it. -/
theorem listing_append_inj {t u : Token}
    (h : t.listing.toList ++ '\n' :: r = u.listing.toList ++ '\n' :: s) :
    t = u ∧ r = s := by
  rw [toList_listing, toList_listing] at h
  obtain ⟨c, cs, hcs, hc⟩ := exists_cons_shownText t.text
    ('@' :: ' ' :: (t.span.text.toList ++ '\n' :: r))
  obtain ⟨d, ds, hds, hd⟩ := exists_cons_shownText u.text
    ('@' :: ' ' :: (u.span.text.toList ++ '\n' :: s))
  rw [hcs, hds] at h
  have hlabel := append_inj_of_stop (fun _ => TokenKind.isAlpha_of_mem_label)
    (fun _ => TokenKind.isAlpha_of_mem_label) hc hd h
  have hkind := TokenKind.label_injective (String.toList_inj.mp hlabel.1)
  rw [← hcs, ← hds] at hlabel
  have htext := shownText_append_inj hlabel.2
  simp only [List.cons.injEq, true_and] at htext
  have hspan := Span.text_append_inj htext.2
  rcases t with ⟨kind, text, span⟩
  rcases u with ⟨kind', text', span'⟩
  exact ⟨Token.mk.injEq .. ▸ ⟨hkind, htext.1, hspan.1⟩, hspan.2⟩

end

/-! ## Lists of tokens -/

/-- The lines of a listing, below its headline. -/
def listingLines (ts : List Token) : List Char :=
  ts.flatMap fun t => ' ' :: ' ' :: (t.listing.toList ++ ['\n'])

theorem listingLines_cons (t : Token) (ts : List Token) :
    listingLines (t :: ts) =
      ' ' :: ' ' :: (t.listing.toList ++ '\n' :: listingLines ts) := by
  simp [listingLines]

theorem listingLines_injective : Function.Injective listingLines := by
  intro ts us h
  induction ts generalizing us with
  | nil =>
      cases us with
      | nil => rfl
      | cons u us => simp [listingLines] at h
  | cons t ts ih =>
      cases us with
      | nil => simp [listingLines] at h
      | cons u us =>
          simp only [listingLines_cons, List.cons.injEq, true_and] at h
          have hfront := listing_append_inj h
          rw [hfront.1, ih hfront.2]

end Token

theorem toList_tokenListing (ts : List Token) :
    (tokenListing ts).toList = "Tokens (".toList ++ (ts.length.repr.toList ++
      ')' :: ':' :: '\n' :: Token.listingLines ts) := by
  simp [tokenListing, Token.listingLines, String.toList_join, List.flatMap_map]

/-- The text of a listing tells the tokens with their kinds, texts and spans,
also of tokens that were made by hand. -/
theorem tokenListing_injective : Function.Injective tokenListing := by
  intro ts us h
  have hchars := congrArg String.toList h
  rw [toList_tokenListing, toList_tokenListing] at hchars
  have hcount := repr_append_inj (by decide) (by decide)
    (List.append_cancel_left hchars)
  simp only [List.cons.injEq, true_and] at hcount
  exact Token.listingLines_injective hcount.2

end Idl
