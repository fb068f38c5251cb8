import Idl.Proofs.Listing.Phrases
import Idl.Proofs.Rendering.Declarations
import Idl.Module.Listing

/-!
# Entries of a listing, read back

The text of an entry, with a mark behind it that ends it, is written as a
phrase, and the phrase tells the entry.  A parameter of type `long` can be read
back because no name that is declared with it starts with another `long`; the
words of a source never leave such a name behind the type.
-/

namespace Idl.Grammar

section
variable {rest : List Char}

/-! ## Types -/

theorem written_named {name : String} (h : IsTypeName name)
    (hbreaks : Breaks rest) (hmore : Without .namespaces rest)
    (hlong : IsLong name → WithoutWord "long" rest) :
    Written (Named name) (put name rest) rest := by
  rcases h with ⟨base, segments, hbase, hsegments, rfl⟩
  obtain ⟨first, tail, hsplit⟩ := exists_splitBase hbase
  have htext : put (qualified base segments) rest =
      put first (put tail (segmentsText segments rest)) := by
    rw [put_qualified, hsplit.text, put_append]
  have hbehind : Breaks (put tail (segmentsText segments rest)) := by
    rcases hsplit.stop with rfl | htail
    · rw [put_empty]
      exact breaks_segmentsText segments hbreaks
    · exact breaks_put htail
  have hword := written_word hsplit.ident hbehind
  have hwords := hsplit.written _ (breaks_segmentsText segments hbreaks)
    (withoutLong_segmentsText hlong)
  have hwritten := hword.seq
    (hwords.seq (written_segments hsegments hbreaks hmore))
  rw [htext]
  apply hwritten.imp
  intro a d hparts
  rcases hparts with ⟨b, hb, c, ⟨signed, e, hsigned, hlengthened⟩, hd⟩
  exact ⟨first, b, hb, .intro hsigned hlengthened hd⟩

theorem put_intercalate {α : Type} (text : α → String) (xs : List α)
    (rest : List Char) :
    put (String.intercalate ", " (xs.map text)) rest =
      writeSeparated (fun x => put (text x)) xs rest := by
  induction xs with
  | nil => rfl
  | cons x xs ih =>
      cases xs with
      | nil => simp [put, writeSeparated]
      | cons y ys =>
          rw [writeSeparated, ← ih]
          · simp [put, String.toList_intercalate]
          · simp

theorem put_template (name : String) (t : TypeRef) (ts : List TypeRef)
    (rest : List Char) :
    put (TypeRef.text ⟨name, none, t :: ts⟩) rest =
      put name ('<' :: writeSeparated (fun u => put (TypeRef.text u))
        (t :: ts) ('>' :: rest)) := by
  rw [← put_intercalate]
  simp [TypeRef.text, TypeRef.texts_eq_map, TypeRef.argumentList, bracketed,
    put]

/-- Arguments that can be read back make a type that can be read back. -/
theorem written_template {name : String} {ts : List TypeRef} {cs : List Char}
    (hname : IsTypeName name)
    (hargs : Written (Separated .comma Shown ts) cs ('>' :: rest)) :
    Written (Shown ⟨name, none, ts⟩) (put name ('<' :: cs)) rest := by
  have hopen : Written (Mark .less) ('<' :: cs) cs := written_mark rfl
  have hopens : Opens .less "" ('<' :: cs) := opens_mark rfl
  have hclose : Written (Mark .greater) ('>' :: rest) rest := written_mark rfl
  have hbreaks : Breaks ('<' :: cs) := rfl
  have hnamed := written_named hname hbreaks
    (hopens.without (by decide) (by decide))
    (fun _ => hopens.withoutWord (by decide) (.inl (by decide)))
  have hwritten := hnamed.seq (hopen.seq (hargs.seq hclose))
  apply hwritten.imp
  intro a e hparts
  rcases hparts with ⟨b, hb, c, hc, d, hd, he⟩
  exact .template hb hc hd he

theorem written_shown {t : TypeRef} (h : IsPlain t) :
    ∀ rest, BehindType t.name rest →
      Written (Shown t) (put t.text rest) rest := by
  induction h with
  | @intro name arguments hname _ ih =>
      intro rest hrest
      cases arguments with
      | nil =>
          have htext : put (TypeRef.text ⟨name, none, []⟩) rest =
              put name rest := by
            simp [TypeRef.text, TypeRef.texts, TypeRef.argumentList, bracketed]
          have hnamed := written_named hname hrest.breaks hrest.namespaces
            hrest.long
          have hwritten := hnamed.seq (written_without hrest.less)
          rw [htext]
          apply hwritten.imp
          intro a b hparts
          rcases hparts with ⟨_, hb, rfl, hnext⟩
          exact .plain hb hnext
      | cons t ts =>
          have hcloses : Opens .greater "" ('>' :: rest) := opens_mark rfl
          have hdelimited : Delimited ('>' :: rest) :=
            delimited_mark rfl rfl (by decide)
          have hargs := written_separated
            (fun u hu rest hrest => ih u hu rest (hrest.behindType u.name))
            hdelimited (hcloses.without (by decide) (by decide))
          rw [put_template]
          exact written_template hname hargs

theorem behindType_size {name : String} (size : Option String)
    (h : BehindType name rest) :
    BehindType name (put (bracketed size) rest) := by
  cases size with
  | none => exact h
  | some n =>
      have htext : put (bracketed (some n)) rest =
          '[' :: put n (']' :: rest) := by
        simp [bracketed, put]
      have hopens : Opens .openSquare "" ('[' :: put n (']' :: rest)) :=
        opens_mark rfl
      rw [htext]
      exact ⟨rfl, hopens.without (by decide) (by decide),
        hopens.without (by decide) (by decide),
        fun _ => hopens.withoutWord (by decide) (.inl (by decide))⟩

theorem put_text (t : TypeRef) (rest : List Char) :
    put t.text rest = put (TypeRef.text { t with quantity := none })
      (put (bracketed t.quantity) rest) := by
  rcases t with ⟨name, size, arguments⟩
  simp [TypeRef.text, bracketed, put]

theorem written_sized {t : TypeRef} (h : IsPlain { t with quantity := none })
    (hsize : ∀ n ∈ t.quantity, IsIdent n) (htype : BehindType t.name rest)
    (hname : BehindName rest) :
    Written (Sized t) (put t.text rest) rest := by
  have hshown := written_shown h _ (behindType_size t.quantity htype)
  have hwritten := hshown.seq (written_size hsize hname)
  rw [put_text]
  exact hwritten

/-! ## Declared names -/

theorem isHeading_of_isPath {name : String} (h : IsPath name) :
    IsHeading name := by
  have hbare : IsHeading (Declarator.text ⟨name, none⟩) :=
    .intro h fun n hn => (Option.not_mem_none n hn).elim
  rwa [Declarator.text, bracketed, String.append_empty] at hbare

theorem coincide_heading (name name' : String) :
    Coincide (DeclaredText name) (DeclaredText name') (name = name') :=
  (reads_declaredText .directive).coincide name name'

theorem behindName_heading {name : String} (h : IsHeading name)
    (hrest : BehindName rest) : BehindName (' ' :: put name rest) := by
  cases h with
  | @intro d hname =>
      rcases d with ⟨name, size⟩
      rcases hname with ⟨first, segments, hfirst, -, rfl⟩
      have htext : put (Declarator.text ⟨qualified first segments, size⟩) rest =
          put first (segmentsText segments (put (bracketed size) rest)) := by
        rw [Declarator.text, put_append, put_qualified]
      have hbreaks := breaks_segmentsText segments (breaks_size size hrest).1
      have hopens := (opens_word hfirst hbreaks).blank
      rw [htext]
      exact ⟨rfl, hopens.without (by decide) (by decide),
        hopens.without (by decide) (by decide)⟩

/-- A type in front of a name that is declared with it. -/
theorem written_sizedNamed {type : TypeRef} {name : String}
    (h : Declares type name) (hrest : Delimited rest) :
    Written (Then (Sized type) (DeclaredText name))
      (put type.text (' ' :: put name rest)) rest := by
  have hheading := isHeading_of_isPath h.path
  have hname := (written_heading hheading hrest.behindName).blank
  have htype := behindType_heading hheading h.separate hrest.behindName
  have hsized := written_sized h.plain h.size htype
    (behindName_heading hheading hrest.behindName)
  exact hsized.seq hname

/-! ## Fields -/

def ListedField (m : Member) : Phrase :=
  Then (DeclaredText m.name)
    (Then (Mark .openRound) (Then (Sized m.type) (Mark .closeRound)))

theorem coincide_listedField {m n : Member}
    (h : IsPlain { m.type with quantity := none }) :
    Coincide (ListedField m) (ListedField n) (m = n) := by
  have hend : Coincide (Mark .closeRound) (Mark .closeRound) True :=
    coincide_mark (by decide)
  have htype : Coincide (Sized m.type) (Sized n.type) (m.type = n.type) :=
    coincide_sized h
  have hboth := (coincide_heading m.name n.name).seq fun _ =>
    (htype.seq fun _ => hend).behindMark .openRound (by decide)
  apply hboth.imp
  intro hparts
  rcases m with ⟨name, type⟩
  rcases n with ⟨name', type'⟩
  exact congrArg₂ Member.mk hparts.1 hparts.2.1

theorem written_listedField {m : Member} (h : Declares m.type m.name) :
    Written (ListedField m) (put (typedName m.name m.type) rest) rest := by
  have htext : put (typedName m.name m.type) rest =
      put m.name (' ' :: '(' :: put m.type.text (')' :: rest)) := by
    simp [typedName, put]
  have hopen : Written (Mark .openRound)
      ('(' :: put m.type.text (')' :: rest))
      (put m.type.text (')' :: rest)) := written_mark rfl
  have hopens : Delimited ('(' :: put m.type.text (')' :: rest)) :=
    delimited_mark rfl rfl (by decide)
  have hclose : Written (Mark .closeRound) (')' :: rest) rest :=
    written_mark rfl
  have hcloses : Delimited (')' :: rest) := delimited_mark rfl rfl (by decide)
  have hname := written_headingSpaced (isHeading_of_isPath h.path)
    hopens.blank.behindName
  have htype := written_sized h.plain h.size
    (hcloses.behindType m.type.name) hcloses.behindName
  rw [htext]
  exact hname.seq (hopen.seq (htype.seq hclose))

/-! ## Bases -/

def ListedBases : List String → Phrase
  | [] => Absent .openRound
  | bases => Then (Mark .openRound) (Then (Mark .colon)
      (Then (Separated .comma DeclaredText bases) (Mark .closeRound)))

theorem begins_listedBases (b : String) (bs : List String) :
    Begins .openRound (ListedBases (b :: bs)) :=
  (begins_mark (by decide)).seq

theorem coincide_listedBases (bases bases' : List String) :
    Coincide (ListedBases bases) (ListedBases bases') (bases = bases') := by
  cases bases with
  | nil =>
      cases bases' with
      | nil => exact coincide_absent.imp fun _ => rfl
      | cons c cs => exact ((begins_listedBases c cs).coincide_absent _).symm
  | cons b bs =>
      cases bases' with
      | nil => exact (begins_listedBases b bs).coincide_absent _
      | cons c cs =>
          have hend : Coincide (Mark .closeRound) (Mark .closeRound) True :=
            coincide_mark (by decide)
          have hbases : Coincide (Separated .comma DeclaredText (b :: bs))
              (Separated .comma DeclaredText (c :: cs)) (b :: bs = c :: cs) :=
            coincide_separated (by decide) fun x _ y _ => coincide_heading x y
          have hboth := ((hbases.seq fun _ => hend).behindMark .colon
            (by decide)).behindMark .openRound (by decide)
          exact hboth.imp And.left

theorem written_listedBases {bases : List String}
    (h : ∀ b ∈ bases, IsHeading b) (hrest : Without .openRound rest) :
    Written (ListedBases bases) (put (baseList bases) rest) rest := by
  cases bases with
  | nil => exact written_without hrest
  | cons b bs =>
      have htext : put (baseList (b :: bs)) rest =
          ' ' :: '(' :: ':' :: ' ' ::
            writeSeparated put (b :: bs) (')' :: rest) := by
        have hsame : put (String.intercalate ", " (b :: bs)) (')' :: rest) =
            writeSeparated put (b :: bs) (')' :: rest) := by
          simpa using put_intercalate id (b :: bs) (')' :: rest)
        rw [← hsame]
        simp [baseList, put]
      have hopen : Written (Mark .openRound)
          ('(' :: ':' :: ' ' :: writeSeparated put (b :: bs) (')' :: rest))
          (':' :: ' ' :: writeSeparated put (b :: bs) (')' :: rest)) :=
        written_mark rfl
      have hcolon : Written (Mark .colon)
          (':' :: ' ' :: writeSeparated put (b :: bs) (')' :: rest))
          (' ' :: writeSeparated put (b :: bs) (')' :: rest)) :=
        written_mark rfl
      have hclose : Written (Mark .closeRound) (')' :: rest) rest :=
        written_mark rfl
      have hcloses : Opens .closeRound "" (')' :: rest) := opens_mark rfl
      have hbases : Written (Separated .comma DeclaredText (b :: bs))
          (writeSeparated put (b :: bs) (')' :: rest)) (')' :: rest) :=
        written_separated
          (fun c hc rest hrest => written_heading (h c hc) hrest.behindName)
          (delimited_mark rfl rfl (by decide))
          (hcloses.without (by decide) (by decide))
      rw [htext]
      exact (hopen.seq (hcolon.seq (hbases.blank.seq hclose))).blank

/-! ## Parameters -/

def ListedName : Option String → Phrase
  | none => Absent .identifier
  | some name => DeclaredText name

def ListedParameter (p : Parameter) : Phrase :=
  Then (Word p.direction.word) (Then (Sized p.type) (ListedName p.name))

def ListedSignature : List Parameter → Phrase
  | [] => Mark .closeRound
  | ps => Then (Separated .comma ListedParameter ps) (Mark .closeRound)

theorem begins_heading (name : String) :
    Begins .identifier (DeclaredText name) := by
  intro a b h
  cases h with
  | intro hname => exact hname.ahead

theorem coincide_listedName (name name' : Option String) :
    Coincide (ListedName name) (ListedName name') (name = name') := by
  cases name with
  | none =>
      cases name' with
      | none => exact coincide_absent.imp fun _ => rfl
      | some name' => exact ((begins_heading name').coincide_absent _).symm
  | some name =>
      cases name' with
      | none => exact (begins_heading name).coincide_absent _
      | some name' => exact (coincide_heading name name').imp (congrArg some)

theorem isPlain_withoutSize {t : TypeRef} (h : IsPlain t) :
    IsPlain { t with quantity := none } ∧ ∀ n ∈ t.quantity, IsIdent n := by
  cases h with
  | intro hname harguments =>
      exact ⟨.intro hname harguments,
        fun n hn => (Option.not_mem_none n hn).elim⟩

theorem isPlain_of_parameter {p : Parameter} (h : p.WellShaped) :
    IsPlain { p.type with quantity := none } := by
  cases h with
  | named hdeclares => exact hdeclares.plain
  | unnamed htype => exact (isPlain_withoutSize htype).1

theorem coincide_listedParameter {p q : Parameter} (h : p.WellShaped) :
    Coincide (ListedParameter p) (ListedParameter q) (p = q) := by
  have hdirection : Coincide (Word p.direction.word) (Word q.direction.word)
      (p.direction = q.direction) :=
    reads_readDirection.coincide p.direction q.direction
  have htype : Coincide (Sized p.type) (Sized q.type) (p.type = q.type) :=
    coincide_sized (isPlain_of_parameter h)
  have hboth := hdirection.seq fun _ => htype.seq fun _ =>
    coincide_listedName p.name q.name
  apply hboth.imp
  intro hparts
  rcases p with ⟨direction, type, name⟩
  rcases q with ⟨direction', type', name'⟩
  exact Parameter.mk.injEq .. ▸ hparts

theorem written_listedParameter {p : Parameter} (h : p.WellShaped)
    (hrest : Delimited rest) :
    Written (ListedParameter p) (put p.text rest) rest := by
  cases h with
  | @named direction type name hdeclares =>
      have htext : put (Parameter.text ⟨direction, type, some name⟩) rest =
          put direction.word (' ' :: put type.text (' ' :: put name rest)) := by
        simp [Parameter.text, put]
      have hword := written_spaced (isIdent_direction direction)
        (put type.text (' ' :: put name rest))
      rw [htext]
      exact hword.seq (written_sizedNamed hdeclares hrest)
  | @unnamed direction type htype =>
      have htext : put (Parameter.text ⟨direction, type, none⟩) rest =
          put direction.word (' ' :: put type.text rest) := by
        simp [Parameter.text, put]
      have hword := written_spaced (isIdent_direction direction)
        (put type.text rest)
      have hplain := isPlain_withoutSize htype
      have hsized := written_sized hplain.1 hplain.2
        (hrest.behindType type.name) hrest.behindName
      have hnone : Without .identifier rest := hrest.without (by decide)
      rw [htext]
      exact hword.seq (hsized.seq (written_without hnone))

theorem begins_listedParameters (ps : List Parameter) :
    Begins .identifier (Separated .comma ListedParameter ps) := by
  intro a c h
  cases h with
  | intro hfirst => exact (begins_terminal (by decide) _).seq _ _ hfirst

theorem coincide_listedSignature {ps qs : List Parameter}
    (h : ∀ p ∈ ps, p.WellShaped) :
    Coincide (ListedSignature ps) (ListedSignature qs) (ps = qs) := by
  have hend : Coincide (Mark .closeRound) (Mark .closeRound) True :=
    coincide_mark (by decide)
  have hclose : Begins .closeRound (Mark .closeRound) :=
    begins_mark (by decide)
  cases ps with
  | nil =>
      cases qs with
      | nil => exact hend.imp fun _ => rfl
      | cons q qs =>
          exact hclose.coincide (begins_listedParameters (q :: qs)).seq
            (by decide) _
  | cons p ps =>
      cases qs with
      | nil =>
          exact (begins_listedParameters (p :: ps)).seq.coincide hclose
            (by decide) _
      | cons q qs =>
          have hboth : Coincide (Separated .comma ListedParameter (p :: ps))
              (Separated .comma ListedParameter (q :: qs))
              (p :: ps = q :: qs) :=
            coincide_separated (by decide) fun x hx y _ =>
              coincide_listedParameter (h x hx)
          exact (hboth.seq fun _ => hend).imp And.left

theorem written_listedSignature {ps : List Parameter}
    (h : ∀ p ∈ ps, p.WellShaped) :
    Written (ListedSignature ps)
      (put (String.intercalate ", " (ps.map Parameter.text)) (')' :: rest))
      rest := by
  have hclose : Written (Mark .closeRound) (')' :: rest) rest :=
    written_mark rfl
  rw [put_intercalate]
  cases ps with
  | nil => exact hclose
  | cons p ps =>
      have hcloses : Opens .closeRound "" (')' :: rest) := opens_mark rfl
      have hps := written_separated
        (fun q hq rest hrest => written_listedParameter (h q hq) hrest)
        (delimited_mark rfl rfl (by decide))
        (hcloses.without (by decide) (by decide))
      exact hps.seq hclose

/-! ## Methods, cases and headlines -/

def ListedMethod (m : Method) : Phrase :=
  Then (Shown m.result) (Then (DeclaredText m.name)
    (Then (Mark .openRound) (ListedSignature m.parameters)))

def ListedCase (c : UnionCase) : Phrase :=
  Then (Word "case") (Then (Shown c.selector)
    (Then (Mark .colon) (ListedField ⟨c.name, c.type⟩)))

def ListedDerived (name : String) (bases : List String) : Phrase :=
  Then (DeclaredText name) (ListedBases bases)

def ListedUnion (name : String) (discriminant : TypeRef) : Phrase :=
  Then (DeclaredText name) (Then (Word "switch")
    (Then (Mark .openRound) (Then (Shown discriminant) (Mark .closeRound))))

theorem coincide_listedMethod {m n : Method} (h : m.WellShaped) :
    Coincide (ListedMethod m) (ListedMethod n) (m = n) := by
  have hsignature : Coincide (ListedSignature m.parameters)
      (ListedSignature n.parameters) (m.parameters = n.parameters) :=
    coincide_listedSignature h.parameters
  have hboth := (coincide_shown h.result n.result).seq fun _ =>
    (coincide_heading m.name n.name).seq fun _ =>
      hsignature.behindMark .openRound (by decide)
  apply hboth.imp
  intro hparts
  rcases m with ⟨name, result, ps⟩
  rcases n with ⟨name', result', qs⟩
  exact Method.mk.injEq .. ▸ ⟨hparts.2.1, hparts.1, hparts.2.2⟩

theorem written_listedMethod {m : Method} (h : m.WellShaped) :
    Written (ListedMethod m) (put m.listing rest) rest := by
  rcases m with ⟨name, result, ps⟩
  have htext : put (Method.listing ⟨name, result, ps⟩) rest =
      put result.text (' ' :: put name ('(' ::
        put (String.intercalate ", " (ps.map Parameter.text))
          (')' :: rest))) := by
    simp [Method.listing, put]
  have hopen : Written (Mark .openRound)
      ('(' :: put (String.intercalate ", " (ps.map Parameter.text))
        (')' :: rest))
      (put (String.intercalate ", " (ps.map Parameter.text))
        (')' :: rest)) := written_mark rfl
  have hopens : Delimited
      ('(' :: put (String.intercalate ", " (ps.map Parameter.text))
        (')' :: rest)) := delimited_mark rfl rfl (by decide)
  have hname := (written_heading h.name hopens.behindName).blank
  have hresult := written_shown h.result _
    (behindType_heading h.name h.separate hopens.behindName)
  have hparameters := hopen.seq (written_listedSignature h.parameters)
  rw [htext]
  exact hresult.seq (hname.seq hparameters)

theorem coincide_listedCase {c d : UnionCase} (h : c.WellShaped) :
    Coincide (ListedCase c) (ListedCase d) (c = d) := by
  have hfield : Coincide (ListedField ⟨c.name, c.type⟩)
      (ListedField ⟨d.name, d.type⟩)
      ((⟨c.name, c.type⟩ : Member) = ⟨d.name, d.type⟩) :=
    coincide_listedField h.member.plain
  have hboth := (coincide_word "case" "case").seq fun _ =>
    (coincide_shown h.selector d.selector).seq fun _ =>
      hfield.behindMark .colon (by decide)
  apply hboth.imp
  intro hparts
  rcases c with ⟨selector, type, name⟩
  rcases d with ⟨selector', type', name'⟩
  have hmember := Member.mk.inj hparts.2.2
  exact UnionCase.mk.injEq .. ▸ ⟨hparts.2.1, hmember.2, hmember.1⟩

theorem written_listedCase {c : UnionCase} (h : c.WellShaped) :
    Written (ListedCase c) (put c.listing rest) rest := by
  rcases c with ⟨selector, type, name⟩
  have htext : put (UnionCase.listing ⟨selector, type, name⟩) rest =
      put "case" (' ' :: put selector.text (':' :: ' ' ::
        put (typedName name type) rest)) := by
    simp [UnionCase.listing, put]
  have hkeyword : IsIdent "case" := by decide
  have hword := written_spaced hkeyword
    (put selector.text (':' :: ' ' :: put (typedName name type) rest))
  have hcolon : Written (Mark .colon)
      (':' :: ' ' :: put (typedName name type) rest)
      (' ' :: put (typedName name type) rest) := written_mark rfl
  have hcolons : Delimited (':' :: ' ' :: put (typedName name type) rest) :=
    delimited_mark rfl rfl (by decide)
  have hselector := written_shown h.selector _
    (hcolons.behindType selector.name)
  have hmember : Declares type name := h.member
  have hfield : Written (ListedField ⟨name, type⟩)
      (put (typedName name type) rest) rest := written_listedField hmember
  rw [htext]
  exact hword.seq (hselector.seq (hcolon.seq hfield.blank))

theorem coincide_listedDerived (name name' : String)
    (bases bases' : List String) :
    Coincide (ListedDerived name bases) (ListedDerived name' bases')
      (name = name' ∧ bases = bases') :=
  (coincide_heading name name').seq fun _ => coincide_listedBases bases bases'

theorem written_listedDerived {name : String} {bases : List String}
    (hname : IsHeading name) (hbases : ∀ b ∈ bases, IsHeading b)
    (hrest : Delimited rest) (hround : Without .openRound rest) :
    Written (ListedDerived name bases) (put (name ++ baseList bases) rest)
      rest := by
  have hbehind : BehindName (put (baseList bases) rest) := by
    cases bases with
    | nil => exact hrest.behindName
    | cons b bs =>
        have htext : put (baseList (b :: bs)) rest = ' ' :: '(' :: ':' :: ' ' ::
            put (String.intercalate ", " (b :: bs)) (')' :: rest) := by
          simp [baseList, put]
        have hopens : Delimited ('(' :: ':' :: ' ' ::
            put (String.intercalate ", " (b :: bs)) (')' :: rest)) :=
          delimited_mark rfl rfl (by decide)
        rw [htext]
        exact hopens.blank.behindName
  have hboth := (written_heading hname hbehind).seq
    (written_listedBases hbases hround)
  rw [put_append]
  exact hboth

theorem coincide_listedUnion {name name' : String}
    {discriminant discriminant' : TypeRef} (h : IsPlain discriminant) :
    Coincide (ListedUnion name discriminant) (ListedUnion name' discriminant')
      (name = name' ∧ discriminant = discriminant') := by
  have hend : Coincide (Mark .closeRound) (Mark .closeRound) True :=
    coincide_mark (by decide)
  have htype := (coincide_shown h discriminant').seq fun _ => hend
  have hboth := (coincide_heading name name').seq fun _ =>
    (coincide_word "switch" "switch").seq fun _ =>
      htype.behindMark .openRound (by decide)
  apply hboth.imp
  intro hparts
  exact ⟨hparts.1, hparts.2.2.1⟩

theorem written_listedUnion {name : String} {discriminant : TypeRef}
    (hname : IsHeading name) (h : IsPlain discriminant) :
    Written (ListedUnion name discriminant)
      (put (name ++ " switch (" ++ discriminant.text ++ ")") rest) rest := by
  have htext : put (name ++ " switch (" ++ discriminant.text ++ ")") rest =
      put name (' ' :: put "switch" (' ' :: '(' ::
        put discriminant.text (')' :: rest))) := by
    simp [put]
  have hkeyword : IsIdent "switch" := by decide
  have hbreaks : Breaks (' ' :: '(' :: put discriminant.text (')' :: rest)) :=
    rfl
  have hopens := (opens_word hkeyword hbreaks).blank
  have hbehind : BehindName (' ' :: put "switch" (' ' :: '(' ::
      put discriminant.text (')' :: rest))) :=
    ⟨rfl, hopens.without (by decide) (by decide),
      hopens.without (by decide) (by decide)⟩
  have hword := written_spaced hkeyword
    ('(' :: put discriminant.text (')' :: rest))
  have hopen : Written (Mark .openRound)
      ('(' :: put discriminant.text (')' :: rest))
      (put discriminant.text (')' :: rest)) := written_mark rfl
  have hclose : Written (Mark .closeRound) (')' :: rest) rest :=
    written_mark rfl
  have hcloses : Delimited (')' :: rest) := delimited_mark rfl rfl (by decide)
  have htype := written_shown h _ (hcloses.behindType discriminant.name)
  rw [htext]
  exact (written_headingSpaced hname hbehind).seq
    (hword.seq (hopen.seq (htype.seq hclose)))

/-! ## Texts that are equal -/

theorem lexed_semicolon (start : Nat) :
    ∃ stop, Lexed start [';'] [stop] ∧ stop.kind = .semicolon := by
  have hempty : ∀ offset, Lexed offset [] [] := by
    intro offset
    rw [Lexed, pieces_nil]
    rfl
  exact ⟨_, (lexed_iff_of_pieces (pieces_mark rfl) rfl).mpr
    ⟨[], hempty _, rfl⟩, rfl⟩

/-- A text that is written as two phrases has what they coincide in. -/
theorem Coincide.of_put {p q : Phrase} {fact : Prop} {s : String}
    (h : Coincide p q fact) (hp : Written p (put s [';']) [';'])
    (hq : Written q (put s [';']) [';']) : fact := by
  obtain ⟨stop, hp⟩ := hp 0
  obtain ⟨stop', hq⟩ := hq 0
  obtain ⟨u, hus, -⟩ := lexed_semicolon stop
  obtain ⟨u', hus', -⟩ := lexed_semicolon stop'
  obtain ⟨ts, hts, hp⟩ := hp [u] hus
  obtain ⟨ts', hts', hq⟩ := hq [u'] hus'
  have hsame : ts = ts' := Except.ok.inj (hts.symm.trans hts')
  exact (h _ _ _ _ hp hq (congrArg skipLines hsame)).1

end

end Idl.Grammar

namespace Idl

open Grammar

theorem typedName_inj {m n : Member} (hm : Declares m.type m.name)
    (hn : Declares n.type n.name)
    (h : typedName m.name m.type = typedName n.name n.type) : m = n :=
  (coincide_listedField hm.plain).of_put (written_listedField hm)
    (h ▸ written_listedField hn)

theorem Method.listing_inj {m n : Method} (hm : m.WellShaped)
    (hn : n.WellShaped) (h : m.listing = n.listing) : m = n :=
  (coincide_listedMethod hm).of_put (written_listedMethod hm)
    (h ▸ written_listedMethod hn)

theorem UnionCase.listing_inj {c d : UnionCase} (hc : c.WellShaped)
    (hd : d.WellShaped) (h : c.listing = d.listing) : c = d :=
  (coincide_listedCase hc).of_put (written_listedCase hc)
    (h ▸ written_listedCase hd)

theorem append_baseList_inj {name name' : String}
    {bases bases' : List String} (hname : IsHeading name)
    (hname' : IsHeading name') (hbases : ∀ b ∈ bases, IsHeading b)
    (hbases' : ∀ b ∈ bases', IsHeading b)
    (h : name ++ baseList bases = name' ++ baseList bases') :
    name = name' ∧ bases = bases' := by
  have hopens : Opens .semicolon "" [';'] := opens_mark rfl
  have hdelimited : Delimited [';'] := delimited_mark rfl rfl (by decide)
  have hround : Without .openRound [';'] :=
    hopens.without (by decide) (by decide)
  exact (coincide_listedDerived name name' bases bases').of_put
    (written_listedDerived hname hbases hdelimited hround)
    (h ▸ written_listedDerived hname' hbases' hdelimited hround)

theorem switch_inj {name name' : String} {type type' : TypeRef}
    (hname : IsHeading name) (hname' : IsHeading name')
    (htype : IsPlain type) (htype' : IsPlain type')
    (h : name ++ " switch (" ++ type.text ++ ")" =
      name' ++ " switch (" ++ type'.text ++ ")") :
    name = name' ∧ type = type' :=
  (coincide_listedUnion htype).of_put (written_listedUnion hname htype)
    (h ▸ written_listedUnion hname' htype')

end Idl
