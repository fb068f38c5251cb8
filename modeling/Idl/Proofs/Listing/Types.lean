import Idl.Proofs.Listing.Entries
import Idl.Proofs.Shape.Trees
import Mathlib.Data.List.Infix

/-!
# Types as they are shown, read again

A type is shown with its arguments behind its whole name, and a source has them
behind the first word of the name.  The two are the same text if the name is
one word.  If it is not, the arguments are read too late: the tokens of the
text are those of the type as it is shown, and wherever the same tokens can be
read as the type too, the name has no words behind the arguments.  Both are
said of all types inside the type, by induction on it.
-/

namespace Idl

/-! ## Names of one word -/

/-- No blank and no namespace mark stands in the name. -/
def OneWord (name : String) : Prop :=
  ' ' ∉ name.toList ∧ ¬ [':', ':'] <:+: name.toList

instance : DecidablePred OneWord := fun name =>
  inferInstanceAs (Decidable (_ ∧ ¬ [':', ':'] <:+: name.toList))

theorem IsIdent.oneWord {name : String} (h : IsIdent name) : OneWord name := by
  refine ⟨fun hblank => ?_, fun hmark => ?_⟩
  · exact absurd (h.wordChar _ hblank) (by decide)
  · have hcolon : ':' ∈ name.toList := hmark.subset (by simp)
    exact absurd (h.wordChar _ hcolon) (by decide)

theorem IsTypeBase.isIdent {base : String} (h : IsTypeBase base)
    (hblank : ' ' ∉ base.toList) : IsIdent base := by
  cases h with
  | word hw => exact hw
  | unsigned => simp at hblank
  | longLong => simp at hblank
  | unsignedLongLong => simp at hblank

theorem OneWord.segments_eq_nil {base : String} {segments : List String}
    (h : OneWord (qualified base segments)) : segments = [] := by
  cases segments with
  | nil => rfl
  | cons s segments =>
      have hmark : [':', ':'] <:+: (qualified base (s :: segments)).toList := by
        rw [Grammar.qualified_cons]
        exact ⟨base.toList, (qualified s segments).toList, by simp⟩
      exact absurd hmark h.2

/-- The name of a type is an identifier if it is one word. -/
theorem IsTypeName.isIdent {name : String} (h : IsTypeName name)
    (hone : OneWord name) : IsIdent name := by
  rcases h with ⟨base, segments, hbase, -, rfl⟩
  have hnone := hone.segments_eq_nil
  subst hnone
  exact hbase.isIdent hone.1

namespace TypeRef

/-! ## The types inside a type -/

mutual
/-- The type itself and all types in its arguments. -/
def inside : TypeRef → List TypeRef
  | ⟨name, quantity, arguments⟩ =>
    ⟨name, quantity, arguments⟩ :: insideAll arguments
def insideAll : List TypeRef → List TypeRef
  | [] => []
  | t :: ts => inside t ++ insideAll ts
end

theorem insideAll_eq_flatMap (ts : List TypeRef) :
    insideAll ts = ts.flatMap inside := by
  induction ts with
  | nil => rfl
  | cons t ts ih => rw [insideAll, ih, List.flatMap_cons]

/-- Inside the type, whatever has arguments has a name of one word. -/
def OneWordTemplates (t : TypeRef) : Prop :=
  ∀ u ∈ t.inside, u.isTemplate = true → OneWord u.name

instance : DecidablePred OneWordTemplates := fun t =>
  inferInstanceAs (Decidable (∀ u ∈ t.inside, _ → _))

theorem oneWordTemplates_iff {name : String} {quantity : Option String}
    {arguments : List TypeRef} :
    OneWordTemplates ⟨name, quantity, arguments⟩ ↔
      (arguments ≠ [] → OneWord name) ∧
        ∀ u ∈ arguments, u.OneWordTemplates := by
  have htemplate : isTemplate ⟨name, quantity, arguments⟩ = true ↔
      arguments ≠ [] := by
    simp [isTemplate]
  unfold OneWordTemplates
  rw [inside, insideAll_eq_flatMap, List.forall_mem_cons, htemplate]
  simp only [List.mem_flatMap]
  exact and_congr_right fun _ =>
    ⟨fun h u hu v hv => h v ⟨u, hu, hv⟩,
      fun h v hv => hv.elim fun u hu => h u hu.1 v hu.2⟩

end TypeRef

namespace Grammar

section
variable {t : TypeRef} {ts : List TypeRef} {a b : List Token}

/-! ## The two texts of a type -/

theorem writeSeparated_eq_write
    (h : ∀ u ∈ t :: ts, ∀ rest, put u.text rest = u.write rest)
    (rest : List Char) :
    writeSeparated (fun u => put (TypeRef.text u)) (t :: ts) ('>' :: rest) =
      t.write (TypeRef.writeMore ts rest) := by
  have hfirst := h t List.mem_cons_self
  induction ts generalizing t with
  | nil => rw [writeSeparated, hfirst, TypeRef.writeMore]
  | cons u us ih =>
      have hmore : ∀ v ∈ u :: us, ∀ rest, put v.text rest = v.write rest :=
        fun v hv => h v (List.mem_cons_of_mem t hv)
      have htail := ih hmore (hmore u List.mem_cons_self)
      rw [writeSeparated, htail, hfirst, TypeRef.writeMore]
      simp

/-- Behind names of one word the arguments stand where a source has them. -/
theorem put_text_eq_write (h : IsPlain t) :
    t.OneWordTemplates → ∀ rest, put t.text rest = t.write rest := by
  induction h with
  | @intro name arguments hname _ ih =>
      intro ht rest
      have hparts := TypeRef.oneWordTemplates_iff.mp ht
      cases arguments with
      | nil =>
          have htext : put (TypeRef.text ⟨name, none, []⟩) rest =
              name.toList ++ rest := by
            simp [TypeRef.text, TypeRef.texts, TypeRef.argumentList, bracketed,
              put]
          rw [htext, TypeRef.write, TypeRef.writeBracketed,
            ← List.append_assoc, List.takeWhile_append_dropWhile]
      | cons u us =>
          have hone : OneWord name := hparts.1 (List.cons_ne_nil u us)
          have hend : ([] : List Char) = [] ∨ Breaks [] := .inl rfl
          have hsplit := takeWhile_put (hname.isIdent hone) hend
          rw [put, List.append_nil] at hsplit
          have hseparated := writeSeparated_eq_write
            (fun v hv => ih v hv (hparts.2 v hv)) rest
          rw [put_template, hseparated, TypeRef.write, TypeRef.writeBracketed,
            hsplit.1, hsplit.2]
          rfl

/-! ## Names of one word have no words behind the arguments -/

/-- Where an opening bracket comes next, the first word is the whole name. -/
theorem TypeName.eq_of_ahead {first name : String}
    (h : TypeName first name a b) (hless : Ahead .less a) :
    a = b ∧ name = first := by
  have hother : ∀ {kind text rest}, Terminal kind text a rest →
      kind ≠ .endLine → kind = .less := fun hterminal hline =>
    (hterminal.ahead hline).unique hless
  cases h with
  | intro hsigned hbase hmore =>
      cases hsigned with
      | unsigned hword => exact absurd (hother hword (by decide)) (by decide)
      | plain =>
          cases hbase with
          | long _ hword => exact absurd (hother hword (by decide)) (by decide)
          | short =>
              cases hmore with
              | nil => exact ⟨rfl, rfl⟩
              | cons hmark =>
                  rcases hmark with ⟨text, hmark⟩
                  exact absurd (hother hmark (by decide)) (by decide)

/-- A name of one word is the first word: none of it is read later. -/
theorem TypeName.eq_of_oneWord {first name : String}
    (h : TypeName first name a b) (hone : OneWord name) :
    a = b ∧ name = first := by
  cases h with
  | intro hsigned hbase hmore =>
      have hnone := hone.segments_eq_nil
      subst hnone
      have hblank := hone.1
      cases hmore with
      | nil =>
          cases hbase with
          | long => simp [qualified] at hblank
          | short =>
              cases hsigned with
              | unsigned => simp [qualified] at hblank
              | plain => exact ⟨rfl, rfl⟩

/-! ## Types that are read from the tokens of their own text -/

/-- The phrase in front of tokens of a source. -/
def InSource (p : Phrase) : Phrase := fun a b => p a b ∧ Spelt a

theorem coincide_arguments
    (h : ∀ u ∈ ts, Coincide (Shown u) (InSource (Typed u)) u.OneWordTemplates) :
    Coincide (Then (Separated .comma Shown ts) (Mark .greater))
      (InSource (Arguments ts)) (∀ u ∈ ts, u.OneWordTemplates) := by
  induction ts with
  | nil =>
      intro a b c d hshown
      obtain ⟨_, hnone, -⟩ := hshown
      cases hnone
  | cons u us ih =>
      intro a b c d hshown hread hsame
      rcases hshown with ⟨mid, ⟨hfirst, hfollowed⟩, hclose⟩
      rcases hread with ⟨harguments, hspelt⟩
      have hhere := h u List.mem_cons_self
      have hmore := ih fun v hv => h v (List.mem_cons_of_mem u hv)
      cases harguments with
      | last htype hclose' =>
          have htypes := hhere _ _ _ _ hfirst ⟨htype, hspelt⟩ hsame
          cases hfollowed with
          | nil =>
              have hend := coincide_mark (by decide) _ _ _ _ hclose hclose'
                htypes.2
              exact ⟨List.forall_mem_singleton.mpr htypes.1, hend.2⟩
      | more htype hcomma hrest =>
          have htypes := hhere _ _ _ _ hfirst ⟨htype, hspelt⟩ hsame
          have hbehind := hcomma.spelt (htype.isPlain hspelt).2
          cases hfollowed with
          | nil => cases hrest
          | cons hmark hitem hitems =>
              have hcommas := coincide_mark (by decide) _ _ _ _ hmark hcomma
                htypes.2
              have hall := hmore _ _ _ _ ⟨mid, .intro hitem hitems, hclose⟩
                ⟨hrest, hbehind⟩ hcommas.2
              exact ⟨List.forall_mem_cons.mpr ⟨htypes.1, hall.1⟩, hall.2⟩

/-- Tokens that show the type and can be read as it: all its templates have
names of one word. -/
theorem coincide_typed (h : IsPlain t) :
    Coincide (Shown t) (InSource (Typed t)) t.OneWordTemplates := by
  induction h with
  | @intro name arguments _ _ ih =>
      intro a b c d hshown hread hsame
      rcases hread with ⟨htyped, hspelt⟩
      rw [TypeRef.oneWordTemplates_iff]
      cases htyped with
      | @plain first _ _ b' _ hfirst hnext hname =>
          cases hshown with
          | plain hnamed =>
              have hnames := coincide_named _ _ _ _ _ _ hnamed
                ⟨first, b', hfirst, hname⟩ hsame
              exact ⟨⟨fun hne => (hne rfl).elim, List.forall_mem_nil _⟩,
                hnames.2⟩
          | template _ _ hargs => cases hargs
      | @template first _ _ _ b' _ _ _ hfirst hopen hargs hname =>
          have hident := shapes_word _ _ _ hfirst hspelt
          cases hshown with
          | plain => cases hargs
          | template hnamed hopen' hshown hclose =>
              rcases hnamed with ⟨first', a', hfirst', hname'⟩
              have hwords := coincide_word first' first _ _ _ _ hfirst' hfirst
                hsame
              have hless := begins_mark (by decide) _ _ hopen
              -- The bracket comes next, so the name that is shown ends there.
              obtain ⟨rfl, rfl⟩ := hname'.eq_of_ahead
                (hless.of_skipLines hwords.2.symm)
              have hone : OneWord name := hwords.1 ▸ hident.1.oneWord
              have hopens := coincide_mark (by decide) _ _ _ _ hopen' hopen
                hwords.2
              have hall := coincide_arguments ih _ _ _ _ ⟨_, hshown, hclose⟩
                ⟨hargs, hopen.spelt hident.2⟩ hopens.2
              have hend := hname.eq_of_oneWord hone
              exact ⟨⟨fun _ => hone, hall.1⟩, hend.1 ▸ hall.2⟩

/-! ## Types in front of a name -/

theorem Terminal.settled {kind : TokenKind} {text : String}
    (h : Terminal kind text a b) (hline : kind ≠ .endLine) : Settled a := by
  rcases h.front with ⟨u, us, rfl, rfl, -, -⟩
  exact settled_cons.mpr hline

theorem Typed.settled (h : Typed t a b) : Settled a := by
  cases h with
  | plain hfirst => exact hfirst.settled (by decide)
  | template hfirst => exact hfirst.settled (by decide)

/-- No type is read at a line end. -/
theorem settled_of_readType {production : Production}
    (h : readType production a = .ok (t, b)) : Settled a := by
  rw [readType_eq] at h
  obtain ⟨first, mid, hfirst, -⟩ := reading_bind_eq_ok.mp h
  obtain ⟨text, mid', htext, -⟩ := reading_bind_eq_ok.mp hfirst
  cases a with
  | nil => exact settled_nil
  | cons u us =>
      rw [wordOnLine, textOnLine] at htext
      split at htext
      next hkind => exact settled_cons.mpr (by simp [hkind])
      next => cases htext

theorem typed_of_readType {production : Production}
    (h : readType production a = .ok (t, b)) : Typed t a b :=
  ((reads_readType production).sound (settled_of_readType h) h).1

theorem spelt_of_lex {source : String} {tokens : List Token}
    (h : lex source = .ok tokens) : Spelt tokens :=
  Tiles.spelt (tiles_of_lexed h)

/-- The name `x`, a semicolon, and nothing behind them. -/
def IsNamed (ts : List Token) : Prop :=
  ∃ name stop, ts = [name, stop] ∧ name.kind = .identifier ∧
    name.text = "x" ∧ stop.kind = .semicolon

theorem IsNamed.settled (h : IsNamed a) : Settled a := by
  rcases h with ⟨name, stop, rfl, hname, -⟩
  exact settled_cons.mpr (by simp [hname])

theorem behindType_named (type : String) : BehindType type [' ', 'x', ';'] :=
  behindType_word (w := "x") (by decide) rfl fun _ => by decide

theorem lexed_named (start : Nat) :
    ∃ ts, Lexed start [' ', 'x', ';'] ts ∧ IsNamed ts := by
  have hident : IsIdent "x" := by decide
  have hbreaks : Breaks [';'] := rfl
  obtain ⟨stop, hlexed, hstop⟩ := lexed_semicolon
    (start + 1 + Text.byteLength (Piece.word "x".toList).spelling)
  have hname := (lexed_iff_of_pieces (pieces_word hident hbreaks)
    (fault?_word _ hbreaks)).mpr ⟨[stop], hlexed, rfl⟩
  exact ⟨_, (lexed_blank rfl).mpr hname, _, stop, rfl, rfl, rfl, hstop⟩

/-- A text that is written as a phrase, in front of a name. -/
theorem Written.lex_named {p : Phrase} {cs : List Char}
    (h : Written p cs [' ', 'x', ';']) :
    ∃ ts rest, lex (String.ofList cs) = .ok ts ∧ p ts rest ∧
      IsNamed rest := by
  obtain ⟨stop, hwritten⟩ := h 0
  obtain ⟨rest, hrest, hnamed⟩ := lexed_named stop
  obtain ⟨ts, hts, hp⟩ := hwritten rest hrest
  rw [← String.toList_ofList (l := cs)] at hts
  exact ⟨ts, rest, hts, hp, hnamed⟩

theorem ofList_put_named (s : String) :
    String.ofList (put s [' ', 'x', ';']) = s ++ " x;" := by
  rw [put, String.ofList_append, String.ofList_toList]

end

end Grammar

open Grammar

/-- The text is read as the type, up to a name behind it. -/
def TypeRef.ReadFrom (production : Production) (text : String) (t : TypeRef) :
    Prop :=
  ∃ ts rest, lex text = .ok ts ∧ readType production ts = .ok (t, rest) ∧
    IsNamed rest

/-- The text of the type, with a name behind it, is read as the type. -/
def TypeRef.ReadsAgain (production : Production) (t : TypeRef) : Prop :=
  t.ReadFrom production (t.text ++ " x;")

section
variable {production : Production} {t : TypeRef}

/-- Every type of the right shape is read from the text that a source has for
it. -/
theorem IsPlain.readFrom (h : IsPlain t) :
    t.ReadFrom production (String.ofList (t.write [' ', 'x', ';'])) := by
  have hwritten := written_typed h _ (behindType_named t.name)
  obtain ⟨ts, rest, hlex, htyped, hnamed⟩ := hwritten.lex_named
  have hread := htyped.complete production
  rw [htyped.settled, hnamed.settled] at hread
  exact ⟨ts, rest, hlex, hread, hnamed⟩

theorem TypeRef.OneWordTemplates.readsAgain (ht : t.OneWordTemplates)
    (h : IsPlain t) : t.ReadsAgain production := by
  have hread : t.ReadFrom production _ := h.readFrom
  rwa [← put_text_eq_write h ht, ofList_put_named] at hread

theorem TypeRef.ReadsAgain.oneWordTemplates
    (hread : t.ReadsAgain production) (h : IsPlain t) :
    t.OneWordTemplates := by
  rcases hread with ⟨ts, rest, hlex, hread, -⟩
  have hwritten := written_shown h _ (behindType_named t.name)
  obtain ⟨us, rest', hlex', hshown, -⟩ := hwritten.lex_named
  rw [ofList_put_named] at hlex'
  have hsame : us = ts := Except.ok.inj (hlex'.symm.trans hlex)
  subst hsame
  have htyped := typed_of_readType hread
  exact (coincide_typed h _ _ _ _ hshown ⟨htyped, spelt_of_lex hlex⟩ rfl).1

/-- The types of a source that are read again from their texts are those whose
templates all have names of one word. -/
theorem readsAgain_iff {source : String} {tokens stream rest : List Token}
    (hlex : lex source = .ok tokens) (hstream : stream ⊆ tokens)
    (hread : readType production stream = .ok (t, rest))
    (production' : Production) :
    t.ReadsAgain production' ↔ t.OneWordTemplates := by
  have hspelt : Spelt stream := fun u hu => spelt_of_lex hlex u (hstream hu)
  have hplain := ((typed_of_readType hread).isPlain hspelt).1
  exact ⟨fun h => h.oneWordTemplates hplain, fun h => h.readsAgain hplain⟩

end

/-- A template in a template, next to a path. -/
def nestedType : TypeRef :=
  ⟨"list", none, [⟨"list", none, [.named "long"]⟩, .named "A::B"]⟩

/-- A template whose name goes on behind its arguments. -/
def splitType : TypeRef := ⟨"list", none, [⟨"A::C", none, [.named "B"]⟩]⟩

theorem IsTypeName.isPlain {name : String} (h : IsTypeName name) :
    IsPlain (.named name) :=
  .intro h (List.forall_mem_nil _)

theorem isPlain_nestedType : IsPlain nestedType := by
  have hlist : IsTypeName "list" := IsIdent.isTypeName (by decide) (by decide)
  have hlong : IsTypeName "long" := IsIdent.isTypeName (by decide) (by decide)
  have hpath : IsTypeName "A::B" :=
    ⟨"A", ["B"], .word (by decide) (by decide), by decide, rfl⟩
  have hinner : IsPlain ⟨"list", none, [.named "long"]⟩ :=
    .intro hlist (List.forall_mem_singleton.mpr hlong.isPlain)
  exact .intro hlist (List.forall_mem_cons.mpr
    ⟨hinner, List.forall_mem_singleton.mpr hpath.isPlain⟩)

theorem isPlain_splitType : IsPlain splitType := by
  have hlist : IsTypeName "list" := IsIdent.isTypeName (by decide) (by decide)
  have hname : IsTypeName "A::C" :=
    ⟨"A", ["C"], .word (by decide) (by decide), by decide, rfl⟩
  have hargument : IsTypeName "B" := IsIdent.isTypeName (by decide) (by decide)
  have hinner : IsPlain ⟨"A::C", none, [.named "B"]⟩ :=
    .intro hname (List.forall_mem_singleton.mpr hargument.isPlain)
  exact .intro hlist (List.forall_mem_singleton.mpr hinner)

/-- One of the two types is read again, and the other one is not. -/
theorem readsAgain_iff_nested :
    nestedType.ReadFrom .structMember "list<list<long>, A::B> x;" ∧
      splitType.ReadFrom .structMember "list<A<B>::C> x;" ∧
      nestedType.ReadsAgain .constant ∧ ¬ splitType.ReadsAgain .constant := by
  have hnested : nestedType.ReadFrom .structMember
      "list<list<long>, A::B> x;" := isPlain_nestedType.readFrom
  have hsplit : splitType.ReadFrom .structMember "list<A<B>::C> x;" :=
    isPlain_splitType.readFrom
  have ⟨ts, rest, hlex, hread, _⟩ := hnested
  have ⟨us, rest', hlex', hread', _⟩ := hsplit
  have hagain := readsAgain_iff hlex (List.Subset.refl ts) hread .constant
  have hagain' := readsAgain_iff hlex' (List.Subset.refl us) hread' .constant
  refine ⟨hnested, hsplit, hagain.mpr (by decide), fun hlate => ?_⟩
  exact absurd (hagain'.mp hlate) (by decide)

end Idl
