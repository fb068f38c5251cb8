import Idl.Proofs.Rendering.Written

/-!
# Names, types and values as text

A name is written as it is, and the cutting takes it apart again.  Behind a
name or a type stands a mark that cannot continue it, or, behind a type, the
first word of a name.
-/

namespace Idl.Grammar

/-! ## What stands behind -/

/-- The text starts with a mark that continues no name and no type. -/
def Delimited (rest : List Char) : Prop :=
  Breaks rest ∧ ∃ kind ∉ [TokenKind.endLine, .identifier, .namespaces,
    .openSquare, .less], Opens kind "" rest

theorem delimited_mark {kind : TokenKind} {c : Char} {rest : List Char}
    (hcut : cut c rest = (.mark kind, rest)) (hbreak : isWordChar c = false)
    (hkind : kind ∉ [TokenKind.endLine, .identifier, .namespaces,
      .openSquare, .less]) : Delimited (c :: rest) :=
  ⟨hbreak, kind, hkind, opens_mark hcut⟩

theorem Delimited.blank {rest : List Char} (h : Delimited rest) :
    Delimited (' ' :: rest) := by
  rcases h with ⟨-, kind, hkind, hopens⟩
  exact ⟨rfl, kind, hkind, hopens.blank⟩

theorem Delimited.without {rest : List Char} (h : Delimited rest)
    {kind : TokenKind} (hkind : kind ∈ [TokenKind.identifier, .namespaces,
      .openSquare, .less]) : Without kind rest := by
  rcases h with ⟨-, other, hother, hopens⟩
  refine hopens.without (fun hline => ?_) (fun hsame => ?_)
  · exact hother (hline ▸ List.mem_cons_self)
  · exact hother (List.mem_cons_of_mem _ (hsame ▸ hkind))

/-- What may stand behind a name. -/
structure BehindName (rest : List Char) : Prop where
  breaks : Breaks rest
  namespaces : Without .namespaces rest
  square : Without .openSquare rest

theorem Delimited.behindName {rest : List Char} (h : Delimited rest) :
    BehindName rest :=
  ⟨h.1, h.without (by decide), h.without (by decide)⟩

/-- What may stand behind a type of the given name. -/
structure BehindType (name : String) (rest : List Char) : Prop where
  breaks : Breaks rest
  less : Without .less rest
  namespaces : Without .namespaces rest
  long : IsLong name → WithoutWord "long" rest

theorem Delimited.behindType {rest : List Char} (h : Delimited rest)
    (name : String) : BehindType name rest where
  breaks := h.1
  less := h.without (by decide)
  namespaces := h.without (by decide)
  long _ := by
    rcases h with ⟨-, kind, hkind, hopens⟩
    refine hopens.withoutWord (fun hline => ?_) (.inl fun hword => ?_)
    · exact hkind (by simp [hline])
    · exact hkind (by simp [hword])

/-! ## First words -/

theorem takeWhile_put {w : String} {rest : List Char} (hw : IsIdent w)
    (hrest : rest = [] ∨ Breaks rest) :
    (put w rest).takeWhile isWordChar = w.toList ∧
      (put w rest).dropWhile isWordChar = rest := by
  have hstop : rest.takeWhile isWordChar = [] ∧
      rest.dropWhile isWordChar = rest := by
    rcases hrest with rfl | hbreaks
    · exact ⟨rfl, rfl⟩
    · exact takeWhile_of_breaks hbreaks
  rw [put, List.takeWhile_append_of_pos hw.wordChar,
    List.dropWhile_append_of_pos hw.wordChar, hstop.1, hstop.2, List.append_nil]
  exact ⟨rfl, rfl⟩

/-! ## Segments -/

def segmentsText (segments : List String) (rest : List Char) : List Char :=
  segments.foldr (fun s rest => ':' :: ':' :: put s rest) rest

theorem qualified_cons (first s : String) (segments : List String) :
    (qualified first (s :: segments)).toList =
      first.toList ++ ':' :: ':' :: (qualified s segments).toList := by
  simp [qualified, String.toList_intercalate]

theorem put_append (s t : String) (rest : List Char) :
    put (s ++ t) rest = put s (put t rest) := by
  simp [put]

theorem put_qualified (first : String) (segments : List String)
    (rest : List Char) :
    put (qualified first segments) rest =
      put first (segmentsText segments rest) := by
  induction segments generalizing first with
  | nil => rfl
  | cons s segments ih =>
      have hs := ih s
      rw [put] at hs
      rw [put, qualified_cons, List.append_assoc, List.cons_append,
        List.cons_append, hs]
      rfl

section
variable {segments : List String} {rest : List Char}

variable (segments) in
theorem breaks_segmentsText (hrest : Breaks rest) :
    Breaks (segmentsText segments rest) := by
  cases segments with
  | nil => exact hrest
  | cons => rfl

theorem written_segments (hmore : ∀ s ∈ segments, IsIdent s)
    (hbreaks : Breaks rest) (hrest : Without .namespaces rest) :
    Written (Segments segments) (segmentsText segments rest) rest := by
  induction segments with
  | nil => exact written_empty fun start ts hts => .nil (hrest start ts hts)
  | cons s segments ih =>
      have hs := hmore s List.mem_cons_self
      have hmark : Written (Mark .namespaces)
          (segmentsText (s :: segments) rest)
          (put s (segmentsText segments rest)) := written_mark rfl
      have hword : Written (Word s) (put s (segmentsText segments rest))
          (segmentsText segments rest) :=
        written_word hs (breaks_segmentsText segments hbreaks)
      have htail := ih fun t ht => hmore t (List.mem_cons_of_mem s ht)
      have hwritten := hmark.seq (hword.seq htail)
      apply hwritten.imp
      intro a d hparts
      rcases hparts with ⟨b, hb, c, hc, hd⟩
      exact .cons hb hc hd

end

/-! ## Declared names -/

section
variable {rest : List Char}

theorem written_size {size : Option String}
    (hsize : ∀ n ∈ size, IsIdent n) (hrest : BehindName rest) :
    Written (Size size) (put (bracketed size) rest) rest := by
  cases size with
  | none =>
      have hnone : Without .openSquare rest := hrest.square
      exact written_empty fun start ts hts => .absent (hnone start ts hts)
  | some n =>
      have htext : put (bracketed (some n)) rest =
          '[' :: put n (']' :: rest) := by
        simp [bracketed, put]
      have hopen : Written (Mark .openSquare) ('[' :: put n (']' :: rest))
          (put n (']' :: rest)) := written_mark rfl
      have hword : Written (Word n) (put n (']' :: rest)) (']' :: rest) :=
        written_word (hsize n rfl) rfl
      have hclose : Written (Mark .closeSquare) (']' :: rest) rest :=
        written_mark rfl
      rw [htext]
      have hwritten := hopen.seq (hword.seq hclose)
      apply hwritten.imp
      intro a d hparts
      rcases hparts with ⟨b, hb, c, hc, hd⟩
      exact .given hb hc hd

theorem breaks_size (size : Option String) (hrest : BehindName rest) :
    Breaks (put (bracketed size) rest) ∧
      Without .namespaces (put (bracketed size) rest) := by
  cases size with
  | none => exact ⟨hrest.breaks, hrest.namespaces⟩
  | some n =>
      have htext : put (bracketed (some n)) rest =
          '[' :: put n (']' :: rest) := by
        simp [bracketed, put]
      have hopens : Opens .openSquare "" ('[' :: put n (']' :: rest)) :=
        opens_mark rfl
      rw [htext]
      exact ⟨rfl, hopens.without (by decide) (by decide)⟩

theorem written_declared {d : Declarator} (hname : IsPath d.name)
    (hsize : ∀ n ∈ d.quantity, IsIdent n) (hrest : BehindName rest) :
    Written (Declared d) (put d.text rest) rest := by
  rcases d with ⟨name, size⟩
  rcases hname with ⟨first, segments, hfirst, hmore, rfl⟩
  have hbehind := breaks_size size hrest
  have htext : put (Declarator.text ⟨qualified first segments, size⟩) rest =
      put first (segmentsText segments (put (bracketed size) rest)) := by
    rw [Declarator.text, put_append, put_qualified]
  have hword := written_word hfirst (breaks_segmentsText segments hbehind.1)
  have htail := (written_segments hmore hbehind.1 hbehind.2).seq
    (written_size hsize hrest)
  rw [htext]
  have hwritten := hword.seq htail
  apply hwritten.imp
  intro a d hparts
  rcases hparts with ⟨b, hb, c, hc, hd⟩
  exact .intro hb hc hd

theorem written_heading {name : String} (hname : IsHeading name)
    (hrest : BehindName rest) :
    Written (DeclaredText name) (put name rest) rest := by
  cases hname with
  | intro hpath hsize =>
      exact (written_declared hpath hsize hrest).imp fun a b h => .intro h

theorem behindType_word {type w : String} (hw : IsIdent w)
    (hrest : Breaks rest) (hlong : IsLong type → w ≠ "long") :
    BehindType type (' ' :: put w rest) where
  breaks := rfl
  less := (opens_word hw hrest).blank.without (by decide) (by decide)
  namespaces := (opens_word hw hrest).blank.without (by decide) (by decide)
  long htype := (opens_word hw hrest).blank.withoutWord (by decide)
    (.inr (hlong htype))

theorem firstSegment_text {first : String} {segments : List String}
    {size : Option String} (hfirst : IsIdent first) :
    firstSegment (Declarator.text ⟨qualified first segments, size⟩) =
      first := by
  have htext : (Declarator.text ⟨qualified first segments, size⟩).toList =
      put first (segmentsText segments (put (bracketed size) [])) := by
    rw [← put_qualified, ← put_append, put, List.append_nil]
    rfl
  have hstop : segmentsText segments (put (bracketed size) []) = [] ∨
      Breaks (segmentsText segments (put (bracketed size) [])) := by
    cases segments with
    | cons => exact .inr rfl
    | nil =>
        cases size with
        | none => exact .inl rfl
        | some n =>
            have hopen : put (bracketed (some n)) [] = '[' :: put n [']'] := by
              simp [bracketed, put]
            refine .inr ?_
            rw [segmentsText, List.foldr_nil, hopen]
            rfl
  rw [firstSegment, htext, (takeWhile_put hfirst hstop).1,
    String.ofList_toList]

theorem firstSegment_declarator {name : String} {size : Option String}
    (hname : IsPath name) :
    firstSegment (Declarator.text ⟨name, size⟩) = firstSegment name := by
  rcases hname with ⟨first, segments, hfirst, -, rfl⟩
  have hplain : Declarator.text ⟨qualified first segments, none⟩ =
      qualified first segments := by
    simp [Declarator.text, bracketed]
  rw [← hplain, firstSegment_text hfirst, hplain, firstSegment_text hfirst]

theorem behindType_declared {type : TypeRef} {d : Declarator}
    (hname : IsPath d.name) (hseparate : Separate type d.text)
    (hrest : BehindName rest) :
    BehindType type.name (' ' :: put d.text rest) := by
  rcases d with ⟨name, size⟩
  rcases hname with ⟨first, segments, hfirst, -, rfl⟩
  have htext : put (Declarator.text ⟨qualified first segments, size⟩) rest =
      put first (segmentsText segments (put (bracketed size) rest)) := by
    rw [Declarator.text, put_append, put_qualified]
  rw [htext]
  refine behindType_word hfirst (breaks_segmentsText _ (breaks_size _ hrest).1) ?_
  intro hlong
  have hne := hseparate hlong
  rwa [firstSegment_text hfirst] at hne

theorem behindType_heading {type : TypeRef} {name : String}
    (hname : IsHeading name) (hseparate : Separate type name)
    (hrest : BehindName rest) : BehindType type.name (' ' :: put name rest) := by
  cases hname with
  | intro hpath => exact behindType_declared hpath hseparate hrest

end

end Idl.Grammar
