import Idl.Proofs.Grammar.Reads
import Idl.Proofs.Rendering.Names
import Idl.Proofs.Token.Tiling

/-!
# What phrases of a source look like

The tokens of a source can be spelled: words are identifiers, and literals hold
no quote.  Phrases put such texts together, and every phrase gives values of
one shape: names are paths, types have type names and no size, values are in
quotes or start with a word.  `Shapes` says this of a phrase, and that only
tokens of a source are left, so it passes from the parts of a phrase to the
whole.

A type that is called `long` has not met another `long` behind it, so a name
that is declared with it starts with a different word.
-/

namespace Idl

/-! ## Texts -/

theorem Token.Spelled.isIdent {t : Token} (h : t.Spelled)
    (hkind : t.kind = .identifier) : IsIdent t.text := by
  cases h with
  | word hw => exact hw
  | literal => cases hkind
  | mark hmark =>
      cases hkind
      exact absurd rfl hmark

theorem Token.Spelled.quote_notMem {t : Token} (h : t.Spelled)
    (hkind : t.kind = .literal) : '"' ∉ t.text.toList := by
  cases h with
  | word => cases hkind
  | literal hbody => exact hbody
  | mark hmark =>
      cases hkind
      exact absurd rfl hmark

theorem IsIdent.exists_cons {w : String} (h : IsIdent w) :
    ∃ c cs, w.toList = c :: cs ∧ isWordChar c = true ∧ '"' ∉ cs := by
  cases hw : w.toList with
  | nil => exact absurd (String.toList_eq_nil_iff.mp hw) h.ne_empty
  | cons c cs =>
      have hall := h.wordChar
      rw [hw] at hall
      have hquote : '"' ∉ cs := fun hmem =>
        absurd (hall _ (List.mem_cons_of_mem c hmem)) (by decide)
      exact ⟨c, cs, rfl, hall c List.mem_cons_self, hquote⟩

theorem IsPlain.quantity_eq {t : TypeRef} (h : IsPlain t) :
    t.quantity = none := by
  cases h with
  | intro => rfl

namespace Grammar

/-- All tokens could have been spelled in a source. -/
def Spelt (ts : List Token) : Prop := ∀ t ∈ ts, t.Spelled

/-- In front of a source the phrase has values of this shape only, and what it
leaves is the rest of a source. -/
def Shapes {α : Type} (phrase : α → Phrase) (shape : α → Prop) : Prop :=
  ∀ x a b, phrase x a b → Spelt a → shape x ∧ Spelt b

section
variable {a b : List Token}

/-! ## Terminals -/

theorem Terminal.spelt {kind : TokenKind} {text : String}
    (h : Terminal kind text a b) (ha : Spelt a) :
    (∃ t : Token, t.kind = kind ∧ t.text = text ∧ t.Spelled) ∧ Spelt b := by
  cases h with
  | @intro t ls rest hkind htext _ =>
      have ht : t.Spelled := ha t List.mem_cons_self
      have hrest : Spelt b := fun u hu =>
        ha u (List.mem_cons_of_mem t (List.mem_append_right ls hu))
      exact ⟨⟨t, hkind, htext, ht⟩, hrest⟩

theorem Mark.spelt {kind : TokenKind} (h : Mark kind a b) (ha : Spelt a) :
    Spelt b := by
  rcases h with ⟨text, h⟩
  exact (h.spelt ha).2

theorem shapes_word : Shapes Word IsIdent := by
  intro w a b h ha
  have hspelt := h.spelt ha
  rcases hspelt.1 with ⟨t, hkind, rfl, ht⟩
  exact ⟨ht.isIdent hkind, hspelt.2⟩

theorem shapes_literal : Shapes Literal fun s => '"' ∉ s.toList := by
  intro s a b h ha
  have hspelt := h.spelt ha
  rcases hspelt.1 with ⟨t, hkind, rfl, ht⟩
  exact ⟨ht.quote_notMem hkind, hspelt.2⟩

/-! ## Sequences -/

section
variable {α : Type} {item : α → Phrase} {shape : α → Prop}

theorem shapes_followed (hitem : Shapes item shape) (separator : TokenKind) :
    Shapes (Followed separator item) fun xs => ∀ x ∈ xs, shape x := by
  intro xs a b h
  induction h with
  | nil => exact fun ha => ⟨List.forall_mem_nil _, ha⟩
  | cons hmark hfirst _ ih =>
      intro ha
      have hhere := hitem _ _ _ hfirst (hmark.spelt ha)
      have hmore := ih hhere.2
      exact ⟨List.forall_mem_cons.mpr ⟨hhere.1, hmore.1⟩, hmore.2⟩

theorem shapes_separated (hitem : Shapes item shape) (separator : TokenKind) :
    Shapes (Separated separator item) fun xs => ∀ x ∈ xs, shape x := by
  intro xs a b h ha
  cases h with
  | intro hfirst hfollowed =>
      have hhere := hitem _ _ _ hfirst ha
      have hmore := shapes_followed hitem separator _ _ _ hfollowed hhere.2
      exact ⟨List.forall_mem_cons.mpr ⟨hhere.1, hmore.1⟩, hmore.2⟩

end

/-! ## Names -/

/-- A name and its size, as they are written. -/
structure IsDeclarator (d : Declarator) : Prop where
  path : IsPath d.name
  size : ∀ n ∈ d.quantity, IsIdent n

theorem shapes_size : Shapes Size fun size => ∀ n ∈ size, IsIdent n := by
  intro size a b h ha
  cases h with
  | absent => exact ⟨fun n hn => (Option.not_mem_none n hn).elim, ha⟩
  | given hopen hword hclose =>
      have hn := shapes_word _ _ _ hword (hopen.spelt ha)
      have hsize : ∀ m ∈ some _, IsIdent m := fun m hm =>
        Option.mem_some_iff.mp hm ▸ hn.1
      exact ⟨hsize, hclose.spelt hn.2⟩

theorem shapes_declared : Shapes Declared IsDeclarator := by
  intro d a b h ha
  cases h with
  | intro hfirst hmore hsize =>
      have hword := shapes_word _ _ _ hfirst ha
      have hsegments := shapes_followed shapes_word .namespaces _ _ _ hmore
        hword.2
      have hquantity := shapes_size _ _ _ hsize hsegments.2
      have hpath : IsPath (qualified _ _) :=
        ⟨_, _, hword.1, hsegments.1, rfl⟩
      exact ⟨⟨hpath, hquantity.1⟩, hquantity.2⟩

theorem shapes_declaredText : Shapes DeclaredText IsHeading := by
  intro name a b h ha
  cases h with
  | intro hname =>
      have hdeclarator := shapes_declared _ _ _ hname ha
      exact ⟨.intro hdeclarator.1.path hdeclarator.1.size, hdeclarator.2⟩

/-- The word at the front of a declared name is its first segment. -/
theorem Declared.firstSegment_eq {d : Declarator} (h : Declared d a b)
    (ha : Spelt a) {word : String} (hnext : ¬ AheadWord word a) :
    firstSegment d.name ≠ word ∧ firstSegment d.text ≠ word := by
  cases h with
  | @intro first segments size _ c _ _ hfirst =>
      have hident := (shapes_word _ _ _ hfirst ha).1
      have hbare : firstSegment (Declarator.text ⟨qualified first segments,
          none⟩) = first := firstSegment_text hident
      rw [Declarator.text, bracketed, String.append_empty] at hbare
      have hne : first ≠ word := by
        intro hsame
        rcases hfirst.front with ⟨t, ts, rfl, hkind, htext, -⟩
        have hline : t.kind ≠ .endLine := by
          rw [hkind]
          decide
        refine hnext ⟨t, ?_, ?_⟩
        · rw [next?_eq, settled_cons.mpr hline]
          rfl
        · simp [Token.isWord, hkind, htext, hsame]
      rw [hbare, firstSegment_text hident]
      exact ⟨hne, hne⟩

/-! ## Types -/

theorem isLong_of_qualified {base : String} {segments : List String}
    (h : IsLong (qualified base segments)) : segments = [] := by
  cases segments with
  | nil => rfl
  | cons s segments =>
      have hcolon : ':' ∈ (qualified base (s :: segments)).toList := by
        rw [qualified_cons]
        simp
      rcases h with hlong | hlong
      · rw [hlong] at hcolon
        exact absurd hcolon (by decide)
      · rw [hlong] at hcolon
        exact absurd hcolon (by decide)

theorem TypeName.not_aheadWord {first name : String}
    (h : TypeName first name a b) (hlong : IsLong name) :
    ¬ AheadWord "long" b := by
  cases h with
  | intro _ hbase hmore =>
      have hnone := isLong_of_qualified hlong
      subst hnone
      cases hmore with
      | nil =>
          cases hbase with
          | short hnext => exact hnext hlong
          | long hname =>
              rcases hname with rfl | rfl
              · exact absurd hlong (by simp [IsLong, qualified])
              · exact absurd hlong (by simp [IsLong, qualified])

/-- Behind a type that is called `long` there is no other `long`. -/
theorem Typed.not_aheadWord {t : TypeRef} (h : Typed t a b)
    (hlong : IsLong t.name) : ¬ AheadWord "long" b := by
  cases h with
  | plain _ _ hname => exact hname.not_aheadWord hlong
  | template _ _ _ hname => exact hname.not_aheadWord hlong

theorem shapes_typeName {first : String} (hfirst : IsIdent first) :
    Shapes (TypeName first) IsTypeName := by
  intro name a b h ha
  cases h with
  | @intro signed base segments _ c d _ hsigned hbase hmore =>
      have hsign : IsTypeBase signed ∧ Spelt c := by
        cases hsigned with
        | plain hunsigned => exact ⟨.word hfirst hunsigned, ha⟩
        | unsigned hword =>
            have hw := shapes_word _ _ _ hword ha
            exact ⟨.unsigned hw.1, hw.2⟩
      have hlength : IsTypeBase base ∧ Spelt d := by
        cases hbase with
        | short => exact hsign
        | long hname hword =>
            have hw := shapes_word _ _ _ hword hsign.2
            rcases hname with rfl | rfl
            · exact ⟨.longLong, hw.2⟩
            · exact ⟨.unsignedLongLong, hw.2⟩
      have hsegments := shapes_followed shapes_word .namespaces _ _ _ hmore
        hlength.2
      exact ⟨⟨base, segments, hlength.1, hsegments.1, rfl⟩, hsegments.2⟩

mutual
theorem Typed.isPlain {t : TypeRef} {a b : List Token} (h : Typed t a b)
    (ha : Spelt a) : IsPlain t ∧ Spelt b := by
  cases h with
  | plain hfirst _ hname =>
      have hword := shapes_word _ _ _ hfirst ha
      have hshape := shapes_typeName hword.1 _ _ _ hname hword.2
      exact ⟨.intro hshape.1 (List.forall_mem_nil _), hshape.2⟩
  | template hfirst hopen hargs hname =>
      have hword := shapes_word _ _ _ hfirst ha
      have harguments := hargs.isPlain (hopen.spelt hword.2)
      have hshape := shapes_typeName hword.1 _ _ _ hname harguments.2
      exact ⟨.intro hshape.1 harguments.1, hshape.2⟩
theorem Arguments.isPlain {ts : List TypeRef} {a b : List Token}
    (h : Arguments ts a b) (ha : Spelt a) :
    (∀ t ∈ ts, IsPlain t) ∧ Spelt b := by
  cases h with
  | last htype hclose =>
      have hhere := htype.isPlain ha
      exact ⟨List.forall_mem_singleton.mpr hhere.1, hclose.spelt hhere.2⟩
  | more htype hcomma hmore =>
      have hhere := htype.isPlain ha
      have hbehind := hmore.isPlain (hcomma.spelt hhere.2)
      exact ⟨List.forall_mem_cons.mpr ⟨hhere.1, hbehind.1⟩, hbehind.2⟩
end

/-- A type, a name that is declared with it, and the size that goes to the
type. -/
theorem Typed.declares {t : TypeRef} {d : Declarator} {c : List Token}
    (htype : Typed t a b) (hname : Declared d b c) (ha : Spelt a) :
    Declares (d.bind t) d.name ∧ Spelt c := by
  have hplain := htype.isPlain ha
  have hdeclarator := shapes_declared _ _ _ hname hplain.2
  have hname_eq : (d.bind t).name = t.name := by
    rw [Declarator.bind]
    split <;> rfl
  have hsize : (d.bind t).quantity = d.quantity := by
    rw [Declarator.bind]
    split
    next hnone => rw [hnone, hplain.1.quantity_eq]
    next hsome => rw [hsome]
  have hbare : { d.bind t with quantity := none } = t := by
    have hnone := hplain.1.quantity_eq
    rcases t with ⟨name, size, arguments⟩
    rw [Declarator.bind, ← hnone]
    split <;> rfl
  refine ⟨⟨?_, ?_, hdeclarator.1.path, ?_⟩, hdeclarator.2⟩
  · rw [hbare]
    exact hplain.1
  · rw [hsize]
    exact hdeclarator.1.size
  · intro hlong
    rw [hname_eq] at hlong
    exact (hname.firstSegment_eq hplain.2 (htype.not_aheadWord hlong)).1

/-! ## Values -/

theorem shapes_valueRun : Shapes ValueRun fun v => '"' ∉ v.toList := by
  intro v a b h
  induction h with
  | nil => exact fun ha => ⟨by decide, ha⟩
  | word hword _ ih =>
      intro ha
      have hw := shapes_word _ _ _ hword ha
      have hmore := ih hw.2
      have hquote : '"' ∉ String.toList _ := fun hmem =>
        absurd (hw.1.wordChar _ hmem) (by decide)
      simp only [String.toList_append, List.mem_append]
      exact ⟨not_or.mpr ⟨hquote, hmore.1⟩, hmore.2⟩
  | literal hliteral _ ih =>
      intro ha
      have hbody := shapes_literal _ _ _ hliteral ha
      have hmore := ih hbody.2
      simp only [String.toList_append, List.mem_append]
      exact ⟨not_or.mpr ⟨hbody.1, hmore.1⟩, hmore.2⟩
  | less hless _ ih =>
      intro ha
      have hmore := ih (hless.spelt ha)
      simp only [String.toList_append, List.mem_append]
      exact ⟨not_or.mpr ⟨by decide, hmore.1⟩, hmore.2⟩

theorem shapes_value : Shapes Value IsValue := by
  intro v a b h ha
  cases h with
  | @word s run _ _ _ hword hrun =>
      have hw := shapes_word _ _ _ hword ha
      have hmore := shapes_valueRun _ _ _ hrun hw.2
      rcases hw.1.exists_cons with ⟨c, cs, htext, hc, hcs⟩
      have hwhole : (s ++ run).toList = c :: (cs ++ run.toList) := by
        rw [String.toList_append, htext, List.cons_append]
      have hquote : '"' ∉ cs ++ run.toList := by
        rw [List.mem_append]
        exact not_or.mpr ⟨hcs, hmore.1⟩
      exact ⟨.plain hwhole hc hquote, hmore.2⟩
  | @literal s run _ _ _ hliteral hrun =>
      have hbody := shapes_literal _ _ _ hliteral ha
      have hmore := shapes_valueRun _ _ _ hrun hbody.2
      have hwhole : ("\"" ++ (s ++ run) ++ "\"").toList =
          '"' :: ((s ++ run).toList ++ ['"']) := by
        simp only [String.toList_append]
        rfl
      have hquote : '"' ∉ (s ++ run).toList := by
        rw [String.toList_append, List.mem_append]
        exact not_or.mpr ⟨hbody.1, hmore.1⟩
      exact ⟨.quoted hwhole hquote, hmore.2⟩

end

end Grammar

end Idl
