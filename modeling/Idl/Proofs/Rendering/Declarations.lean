import Idl.Proofs.Rendering.Types
import Idl.Proofs.Grammar.Source

/-!
# Declarations as text

Every entry and every declaration ends with a mark of its own, so whatever
follows it is not taken for a part of it.  Only an enumerator takes as many
commas as follow, and so the text behind it must not start with one.
-/

namespace Idl.Grammar

variable {rest : List Char}

theorem isIdent_direction (direction : Direction) : IsIdent direction.word := by
  cases direction <;> decide

theorem written_spaced {w : String} (hw : IsIdent w) (rest : List Char) :
    Written (Word w) (put w (' ' :: rest)) rest := by
  have hblank : Breaks (' ' :: rest) := rfl
  exact (written_word hw hblank).trim

/-! ## Fields and enumerators -/

theorem bind_withoutSize (name : String) (type : TypeRef) :
    Declarator.bind ⟨name, type.quantity⟩ { type with quantity := none } =
      type := by
  rcases type with ⟨text, size, arguments⟩
  cases size <;> rfl

theorem written_field {m : Member} (h : Declares m.type m.name) :
    Written (Field m) (m.write rest) rest := by
  have hend : Written (Mark .semicolon) (';' :: rest) rest := written_mark rfl
  have hdelimited : Delimited (';' :: rest) :=
    delimited_mark rfl rfl (by decide)
  have hwritten := (written_declares h hdelimited).seq hend
  apply hwritten.imp
  intro a d hparts
  rcases hparts with ⟨c, ⟨b, htype, hname⟩, hsemicolon⟩
  have hfield := Field.intro htype hname hsemicolon
  rwa [bind_withoutSize] at hfield

theorem written_enumerator {name : String} (h : IsIdent name)
    (hrest : Without .comma rest) :
    Written (Enumerator name) (writeEnumerator name rest) rest := by
  have hbreaks : Breaks (',' :: rest) := rfl
  have hcomma : Written (Mark .comma) (',' :: rest) rest := written_mark rfl
  have hwritten := (written_word h hbreaks).seq
    (hcomma.seq (written_without hrest))
  apply hwritten.imp
  intro a d hparts
  rcases hparts with ⟨b, hb, c, hc, rfl, hnext⟩
  exact .intro hb (.cons hc (.nil hnext))

/-! ## Sequences -/

theorem written_separated {α : Type} {item : α → Phrase}
    {write : α → List Char → List Char} {x : α} {xs : List α}
    (hitem : ∀ y ∈ x :: xs, ∀ rest, Delimited rest →
      Written (item y) (write y rest) rest)
    (hrest : Delimited rest) (hcomma : Without .comma rest) :
    Written (Separated .comma item (x :: xs))
      (writeSeparated write (x :: xs) rest) rest := by
  induction xs generalizing x with
  | nil =>
      have hx := hitem x List.mem_cons_self rest hrest
      have hwritten := hx.seq (written_without hcomma)
      apply hwritten.imp
      intro a c hparts
      rcases hparts with ⟨b, hb, rfl, hnext⟩
      exact .intro hb (.nil hnext)
  | cons y ys ih =>
      have hmore := ih fun z hz => hitem z (List.mem_cons_of_mem x hz)
      have hmark : Written (Mark .comma)
          (',' :: ' ' :: writeSeparated write (y :: ys) rest)
          (' ' :: writeSeparated write (y :: ys) rest) := written_mark rfl
      have hx := hitem x List.mem_cons_self
        (',' :: ' ' :: writeSeparated write (y :: ys) rest)
        (delimited_mark rfl rfl (by decide))
      have hwritten := hx.seq (hmark.seq hmore.blank)
      apply hwritten.imp
      intro a d hparts
      rcases hparts with ⟨b, hb, c, hc, hd⟩
      cases hd with
      | intro hy hys => exact .intro hb (.cons hc hy hys)

/-! ## Methods -/

theorem written_passed {p : Parameter} (h : p.WellShaped)
    (hrest : Delimited rest) : Written (Passed p) (p.write rest) rest := by
  cases h with
  | @named direction type name hdeclares =>
      have hword := written_spaced (isIdent_direction direction)
        (type.write (' ' :: writeDeclared name type rest))
      have hwritten := hword.seq (written_declares hdeclares hrest)
      apply hwritten.imp
      intro a d hparts
      rcases hparts with ⟨b, hb, c, htype, hname⟩
      have hpassed := Passed.named hb htype hname
      rwa [bind_withoutSize] at hpassed
  | @unnamed direction type htype =>
      have hword := written_spaced (isIdent_direction direction)
        (type.write rest)
      have hplain := written_typed htype rest (hrest.behindType type.name)
      have hnone : Without .identifier rest := hrest.without (by decide)
      have hwritten := hword.seq (hplain.seq (written_without hnone))
      apply hwritten.imp
      intro a d hparts
      rcases hparts with ⟨b, hb, c, hc, rfl, hnext⟩
      exact .unnamed hb hc hnext

theorem written_signature {ps : List Parameter}
    (h : ∀ p ∈ ps, p.WellShaped) :
    Written (Signature ps)
      (writeSeparated Parameter.write ps (')' :: ';' :: rest)) rest := by
  have hclose : Written (Mark .closeRound) (')' :: ';' :: rest)
      (';' :: rest) := written_mark rfl
  have hend : Written (Mark .semicolon) (';' :: rest) rest := written_mark rfl
  cases ps with
  | nil =>
      have hwritten := hclose.seq hend
      apply hwritten.imp
      intro a c hparts
      rcases hparts with ⟨b, hb, hc⟩
      exact .empty hb hc
  | cons p ps =>
      have hdelimited : Delimited (')' :: ';' :: rest) :=
        delimited_mark rfl rfl (by decide)
      have hopens : Opens .closeRound "" (')' :: ';' :: rest) := opens_mark rfl
      have hps := written_separated
        (fun q hq rest hrest => written_passed (h q hq) hrest) hdelimited
        (hopens.without (by decide) (by decide))
      have hwritten := hps.seq (hclose.seq hend)
      apply hwritten.imp
      intro a d hparts
      rcases hparts with ⟨b, hb, c, hc, hd⟩
      exact .parameters hb hc (.taken hd)

theorem written_called {m : Method} (h : m.WellShaped) :
    Written (Called m) (m.write rest) rest := by
  rcases m with ⟨name, result, ps⟩
  have hsignature : Written (Signature ps)
      (writeSeparated Parameter.write ps (')' :: ';' :: rest)) rest :=
    written_signature h.parameters
  have hopen : Written (Mark .openRound)
      ('(' :: writeSeparated Parameter.write ps (')' :: ';' :: rest))
      (writeSeparated Parameter.write ps (')' :: ';' :: rest)) :=
    written_mark rfl
  have hdelimited : Delimited
      ('(' :: writeSeparated Parameter.write ps (')' :: ';' :: rest)) :=
    delimited_mark rfl rfl (by decide)
  have hname := (written_heading h.name hdelimited.behindName).blank
  have hresult := written_typed h.result _
    (behindType_heading h.name h.separate hdelimited.behindName)
  have hwritten := hresult.seq (hname.seq (hopen.seq hsignature))
  apply hwritten.imp
  intro a e hparts
  rcases hparts with ⟨b, hb, c, hc, d, hd, he⟩
  exact .intro hb hc hd he

theorem written_selected {c : UnionCase} (h : c.WellShaped) :
    Written (Selected c) (c.write rest) rest := by
  rcases c with ⟨selector, type, name⟩
  have hmember : Declares type name := h.member
  have hfield : Written (Field ⟨name, type⟩)
      (' ' :: Member.write ⟨name, type⟩ rest) rest :=
    (written_field hmember).blank
  have hcolon : Written (Mark .colon)
      (':' :: ' ' :: Member.write ⟨name, type⟩ rest)
      (' ' :: Member.write ⟨name, type⟩ rest) := written_mark rfl
  have hclose : Written (Mark .closeRound)
      (')' :: ':' :: ' ' :: Member.write ⟨name, type⟩ rest)
      (':' :: ' ' :: Member.write ⟨name, type⟩ rest) := written_mark rfl
  have hdelimited : Delimited
      (')' :: ':' :: ' ' :: Member.write ⟨name, type⟩ rest) :=
    delimited_mark rfl rfl (by decide)
  have hselector := written_typed h.selector _
    (hdelimited.behindType selector.name)
  have hopen : Written (Mark .openRound)
      ('(' :: selector.write
        (')' :: ':' :: ' ' :: Member.write ⟨name, type⟩ rest))
      (selector.write (')' :: ':' :: ' ' :: Member.write ⟨name, type⟩ rest)) :=
    written_mark rfl
  have hcase : IsIdent "case" := by decide
  have hwritten := (written_spaced hcase _).seq (hopen.seq (hselector.seq
    (hclose.seq (hcolon.seq hfield))))
  apply hwritten.imp
  intro a g hparts
  rcases hparts with ⟨b, hb, c, hc, d, hd, e, he, f, hf, hg⟩
  exact .intro hb hc hd he hf hg

/-! ## Bodies -/

section
variable {α : Type} {entry : α → Phrase} {write : α → List Char → List Char}
  {xs : List α}

def entriesText (write : α → List Char → List Char) (xs : List α)
    (rest : List Char) : List Char :=
  '\n' :: xs.foldr (fun x rest => write x ('\n' :: rest)) rest

/-- Entries are written if each is in front of a text of some form, which the
entries and the text behind them have. -/
theorem written_entries {front : List Char → Prop}
    (hentry : ∀ x ∈ xs, ∀ rest, front rest →
      Written (entry x) (write x rest) rest)
    (hfront : ∀ x ∈ xs, ∀ rest, front ('\n' :: write x rest))
    (hrest : front ('\n' :: rest)) :
    Written (Entries entry xs []) (entriesText write xs rest) rest := by
  have hline : ∀ (ys : List α) (t : Token) (a b : List Token),
      t.kind = .endLine → Entries entry ys [] a b →
        Entries entry ys [] (t :: a) b := by
    intro ys t a b hkind h
    exact .ignored (by simp [Ignored, hkind]) h
  induction xs with
  | nil =>
      have hnone : Written (Entries entry [] []) rest rest :=
        written_empty fun _ _ _ => .nil
      exact hnone.behindMark rfl (hline [])
  | cons x xs ih =>
      have hmore := ih (fun y hy => hentry y (List.mem_cons_of_mem x hy))
        fun y hy => hfront y (List.mem_cons_of_mem x hy)
      have hnext : front (entriesText write xs rest) := by
        cases xs with
        | nil => exact hrest
        | cons y ys =>
            exact hfront y (List.mem_cons_of_mem x List.mem_cons_self) _
      have hx := hentry x List.mem_cons_self _ hnext
      have hentries : Written (Entries entry (x :: xs) [])
          (write x (entriesText write xs rest)) rest := by
        have hwritten := hx.seq hmore
        apply hwritten.imp
        intro a c hparts
        rcases hparts with ⟨b, hb, hc⟩
        exact .entry hb hc
      exact hentries.behindMark rfl (hline (x :: xs))

theorem written_braced (front : List Char → Prop)
    (hentry : ∀ x ∈ xs, ∀ rest, front rest →
      Written (entry x) (write x rest) rest)
    (hfront : ∀ x ∈ xs, ∀ rest, front ('\n' :: write x rest))
    (hrest : ∀ rest, front ('\n' :: '\x7d' :: rest)) :
    Written (Braced entry xs []) (writeBraced write xs rest) (';' :: rest) := by
  have hopen : Written (Mark .openBrace) (writeBraced write xs rest)
      (entriesText write xs ('\x7d' :: ';' :: rest)) := written_mark rfl
  have hentries := written_entries hentry hfront (hrest (';' :: rest))
  have hclose : Written (Mark .closeBrace) ('\x7d' :: ';' :: rest)
      (';' :: rest) := written_mark rfl
  have hwritten := hopen.seq (hentries.seq hclose)
  apply hwritten.imp
  intro a d hparts
  rcases hparts with ⟨b, hb, c, hc, hd⟩
  exact .intro hb hc hd

/-- Most entries do not look at what follows them. -/
theorem written_bracedAlways
    (hentry : ∀ x ∈ xs, ∀ rest, Written (entry x) (write x rest) rest) :
    Written (Braced entry xs []) (writeBraced write xs rest) (';' :: rest) :=
  written_braced (fun _ => True) (fun x hx rest _ => hentry x hx rest)
    (fun _ _ _ => trivial) fun _ => trivial

end

/-! ## Declarations -/

theorem written_bases {α : Type} {write : α → List Char → List Char}
    {bases : List String} {xs : List α} (h : ∀ b ∈ bases, IsHeading b) :
    Written (Bases bases) (writeBases bases (writeBraced write xs rest))
      (writeBraced write xs rest) := by
  have hopens : Opens .openBrace "" (writeBraced write xs rest) := opens_mark rfl
  have hdelimited : Delimited (writeBraced write xs rest) :=
    delimited_mark rfl rfl (by decide)
  cases bases with
  | nil =>
      have hnone : Without .colon (writeBraced write xs rest) :=
        hopens.without (by decide) (by decide)
      exact written_empty fun start ts hts => .absent (hnone start ts hts)
  | cons b bs =>
      have hbases : Written (Separated .comma DeclaredText (b :: bs))
          (writeSeparated put (b :: bs) (' ' :: writeBraced write xs rest))
          (' ' :: writeBraced write xs rest) :=
        written_separated
          (fun c hc rest hrest => written_heading (h c hc) hrest.behindName)
          hdelimited.blank (hopens.blank.without (by decide) (by decide))
      have hcolon : Written (Mark .colon)
          (':' :: ' ' :: writeSeparated put (b :: bs)
            (' ' :: writeBraced write xs rest))
          (' ' :: writeSeparated put (b :: bs)
            (' ' :: writeBraced write xs rest)) := written_mark rfl
      have hwritten := hcolon.seq hbases.trim.blank
      apply hwritten.imp
      intro a d hparts
      rcases hparts with ⟨c, hc, hd⟩
      exact .given hc hd

theorem written_headingSpaced {name : String} (hname : IsHeading name)
    (hrest : BehindName (' ' :: rest)) :
    Written (DeclaredText name) (put name (' ' :: rest)) rest :=
  (written_heading hname hrest).trim

theorem delimited_bases {α : Type} {write : α → List Char → List Char}
    (bases : List String) (xs : List α) :
    Delimited (writeBases bases (writeBraced write xs rest)) := by
  cases bases with
  | nil => exact delimited_mark rfl rfl (by decide)
  | cons b bs => exact delimited_mark rfl rfl (by decide)

theorem written_derived {α : Type} {entry : α → Phrase}
    {write : α → List Char → List Char} {keyword name : String}
    {bases : List String} {xs : List α} (hkeyword : IsIdent keyword)
    (hname : IsHeading name) (hbases : ∀ b ∈ bases, IsHeading b)
    (hbody : Written (Braced entry xs []) (writeBraced write xs rest)
      (';' :: rest)) :
    Written (fun a e => ∃ b, Word keyword a b ∧ ∃ c, DeclaredText name b c ∧
        ∃ d, Bases bases c d ∧ Braced entry xs [] d e)
      (put keyword (' ' :: put name (' ' :: writeBases bases
        (writeBraced write xs rest)))) (';' :: rest) :=
  (written_spaced hkeyword _).seq
    ((written_headingSpaced hname (delimited_bases bases xs).blank.behindName).seq
      ((written_bases hbases).seq hbody))

theorem written_interface {d : InterfaceDecl} (hname : IsHeading d.name)
    (hbases : ∀ b ∈ d.bases, IsHeading b)
    (hmethods : ∀ m ∈ d.methods, m.WellShaped) :
    Written (DeclaredItem (.interface d) [])
      (Declaration.write (.interface d) rest) (';' :: rest) := by
  have hkeyword : IsIdent "interface" := by decide
  have hbody : Written (Braced Called d.methods [])
      (writeBraced Method.write d.methods rest) (';' :: rest) :=
    written_bracedAlways fun m hm rest => written_called (hmethods m hm)
  have hwritten := written_derived hkeyword hname hbases hbody
  apply hwritten.imp
  intro a e hparts
  rcases hparts with ⟨b, hb, c, hc, x, hx, he⟩
  exact .interface hb hc hx he

theorem written_struct {d : StructDecl} (hname : IsHeading d.name)
    (hbases : ∀ b ∈ d.bases, IsHeading b)
    (hmembers : ∀ m ∈ d.members, Declares m.type m.name) :
    Written (DeclaredItem (.struct d) [])
      (Declaration.write (.struct d) rest) (';' :: rest) := by
  have hkeyword : IsIdent "struct" := by decide
  have hbody : Written (Braced Field d.members [])
      (writeBraced Member.write d.members rest) (';' :: rest) :=
    written_bracedAlways fun m hm rest => written_field (hmembers m hm)
  have hwritten := written_derived hkeyword hname hbases hbody
  apply hwritten.imp
  intro a e hparts
  rcases hparts with ⟨b, hb, c, hc, x, hx, he⟩
  exact .struct hb hc hx he

theorem written_typedef {d : Member} (h : Declares d.type d.name) :
    Written (DeclaredItem (.typedef d) [])
      (Declaration.write (.typedef d) rest) rest := by
  have hkeyword : IsIdent "typedef" := by decide
  refine ((written_spaced hkeyword _).seq (written_field h)).imp
    fun a c hparts => ?_
  rcases hparts with ⟨b, hb, hc⟩
  exact .typedef hb hc

theorem written_constant {d : Constant} (h : Declares d.type d.name)
    (hvalue : IsValue d.value) :
    Written (DeclaredItem (.constant d) [])
      (Declaration.write (.constant d) rest) rest := by
  rcases d with ⟨name, type, value⟩
  have hkeyword : IsIdent "const" := by decide
  have hequals : Written (Mark .equals)
      ('=' :: ' ' :: writeValue value (';' :: rest))
      (' ' :: writeValue value (';' :: rest)) := written_mark rfl
  have hdelimited : Delimited ('=' :: ' ' :: writeValue value (';' :: rest)) :=
    delimited_mark rfl rfl (by decide)
  have hdeclares := (written_declares h hdelimited.blank).trim
  have hend : Written (Mark .semicolon) (';' :: rest) rest := written_mark rfl
  have hvalueText : Written (Value value)
      (' ' :: writeValue value (';' :: rest)) (';' :: rest) :=
    (written_value hvalue).blank
  have hwritten := (written_spaced hkeyword _).seq (hdeclares.seq
    (hequals.seq (hvalueText.seq hend)))
  apply hwritten.imp
  intro a g hparts
  rcases hparts with ⟨b, hb, c, ⟨e, htype, hname⟩, f, hf, k, hk, hg⟩
  have hconstant := DeclaredItem.constant hb htype hname hf hk hg
  rwa [bind_withoutSize] at hconstant

theorem written_enum {d : EnumDecl} (hname : IsHeading d.name)
    (h : ∀ e ∈ d.enumerators, IsIdent e) :
    Written (DeclaredItem (.enum d) [])
      (Declaration.write (.enum d) rest) (';' :: rest) := by
  have hkeyword : IsIdent "enum" := by decide
  have hfront : ∀ e ∈ d.enumerators, ∀ rest,
      Without .comma ('\n' :: writeEnumerator e rest) := by
    intro e he rest
    have hbreaks : Breaks (',' :: rest) := rfl
    exact ((opens_word (h e he) hbreaks).without (by decide) (by decide)).line
  have hlast : ∀ rest, Without .comma ('\n' :: '\x7d' :: rest) := by
    intro rest
    have hopens : Opens .closeBrace "" ('\x7d' :: rest) := opens_mark rfl
    exact (hopens.without (by decide) (by decide)).line
  have hentry : ∀ e ∈ d.enumerators, ∀ rest, Without .comma rest →
      Written (Enumerator e) (writeEnumerator e rest) rest :=
    fun e he rest hrest => written_enumerator (h e he) hrest
  have hbody : Written (Braced Enumerator d.enumerators [])
      (writeBraced writeEnumerator d.enumerators rest) (';' :: rest) :=
    written_braced _ hentry hfront hlast
  have hdelimited : Delimited
      (writeBraced writeEnumerator d.enumerators rest) :=
    delimited_mark rfl rfl (by decide)
  have hwritten := (written_spaced hkeyword _).seq
    ((written_headingSpaced hname hdelimited.blank.behindName).seq hbody)
  apply hwritten.imp
  intro a e hparts
  rcases hparts with ⟨b, hb, c, hc, he⟩
  exact .enum hb hc he

theorem behindName_word {w : String} (hw : IsIdent w) (hrest : Breaks rest) :
    BehindName (' ' :: put w rest) where
  breaks := rfl
  namespaces := (opens_word hw hrest).blank.without (by decide) (by decide)
  square := (opens_word hw hrest).blank.without (by decide) (by decide)

theorem written_union {d : UnionDecl} (hname : IsHeading d.name)
    (hdiscriminant : IsPlain d.discriminant)
    (hcases : ∀ c ∈ d.cases, c.WellShaped) :
    Written (DeclaredItem (.union d) [])
      (Declaration.write (.union d) rest) (';' :: rest) := by
  rcases d with ⟨name, discriminant, cs⟩
  have hkeyword : IsIdent "union" := by decide
  have hswitch : IsIdent "switch" := by decide
  have hbody : Written (Braced Selected cs [])
      (' ' :: writeBraced UnionCase.write cs rest) (';' :: rest) :=
    (written_bracedAlways fun c hc rest => written_selected (hcases c hc)).blank
  have hclose : Written (Mark .closeRound)
      (')' :: ' ' :: writeBraced UnionCase.write cs rest)
      (' ' :: writeBraced UnionCase.write cs rest) := written_mark rfl
  have hdelimited : Delimited
      (')' :: ' ' :: writeBraced UnionCase.write cs rest) :=
    delimited_mark rfl rfl (by decide)
  have htype := written_typed hdiscriminant _
    (hdelimited.behindType discriminant.name)
  have hopen : Written (Mark .openRound)
      ('(' :: discriminant.write
        (')' :: ' ' :: writeBraced UnionCase.write cs rest))
      (discriminant.write
        (')' :: ' ' :: writeBraced UnionCase.write cs rest)) :=
    written_mark rfl
  have hblank : Breaks (' ' :: '(' :: discriminant.write
      (')' :: ' ' :: writeBraced UnionCase.write cs rest)) := rfl
  have hbehind := behindName_word hswitch hblank
  have hwritten := (written_spaced hkeyword _).seq
    ((written_headingSpaced hname hbehind).seq ((written_spaced hswitch _).seq
      (hopen.seq (htype.seq (hclose.seq hbody)))))
  apply hwritten.imp
  intro a h hparts
  rcases hparts with ⟨b, hb, c, hc, d, hd, e, he, f, hf, g, hg, hh⟩
  exact .union hb hc hd he hf hg hh

/-! ## Items -/

section
variable {is : List Item} {mid : List Char}

theorem written_skipped {kind : TokenKind} {c : Char}
    (h : Written (Items is) mid rest) (hcut : cut c mid = (.mark kind, mid))
    (hkind : kind = .endLine ∨ kind = .semicolon) :
    Written (Items is) (c :: mid) rest := by
  refine h.behindMark hcut fun t a b htoken hitems => .ignored ?_ hitems
  rcases hkind with rfl | rfl <;> simp [Ignored, htoken]

theorem written_line (h : Written (Items is) mid rest) :
    Written (Items is) ('\n' :: mid) rest :=
  written_skipped h rfl (.inl rfl)

theorem written_endedLine (h : Written (Items is) mid rest) :
    Written (Items is) (';' :: '\n' :: mid) rest :=
  written_skipped (written_line h) rfl (.inr rfl)

theorem written_declaration {d : Declaration} (hd : d.WellShaped)
    (h : Written (Items is) mid rest) :
    Written (Items (.declaration d [] :: is)) (d.write ('\n' :: mid)) rest := by
  have hcons : ∀ a c, (∃ b, DeclaredItem d [] a b ∧ Items is b c) →
      Items (.declaration d [] :: is) a c := by
    intro a c hparts
    rcases hparts with ⟨b, hb, hc⟩
    exact .declaration hb hc
  have hline := written_line h
  have hended := written_endedLine h
  cases hd with
  | interface hname hbases hmethods =>
      exact ((written_interface hname hbases hmethods).seq hended).imp hcons
  | typedef hdeclares => exact ((written_typedef hdeclares).seq hline).imp hcons
  | struct hname hbases hmembers =>
      exact ((written_struct hname hbases hmembers).seq hended).imp hcons
  | constant hdeclares hvalue =>
      exact ((written_constant hdeclares hvalue).seq hline).imp hcons
  | enum hname henumerators =>
      exact ((written_enum hname henumerators).seq hended).imp hcons
  | union hname hdiscriminant hcases =>
      exact ((written_union hname hdiscriminant hcases).seq hended).imp hcons

theorem written_declarations {ds : List Declaration}
    (hds : ∀ d ∈ ds, d.WellShaped) (h : Written (Items is) mid rest) :
    Written (Items (ds.map (.declaration · []) ++ is))
      (writeDeclarations ds mid) rest := by
  induction ds with
  | nil => exact h
  | cons d ds ih =>
      have hmore := ih fun e he => hds e (List.mem_cons_of_mem d he)
      exact written_declaration (hds d List.mem_cons_self) hmore

end

/-! ## Directives -/

theorem written_hash (cs : List Char) :
    Written (Mark .hash) ('#' :: cs) cs :=
  written_mark rfl

theorem isIdent_define : IsIdent "define" := by decide

theorem isIdent_include : IsIdent "include" := by decide

/-- A definition without a value ends with its line. -/
theorem written_defineName {name : String} (hname : IsIdent name) :
    Written (Directed (.define name none))
      (Directive.write (.define name none) ('\n' :: rest)) ('\n' :: rest) := by
  have hbreaks : Breaks ('\n' :: rest) := rfl
  have hopens : Opens .endLine "" ('\n' :: rest) := opens_mark rfl
  have hnone : Written
      (fun a b => a = b ∧ ∀ v ∈ a.head?, v.kind ≠ .identifier)
      ('\n' :: rest) ('\n' :: rest) := by
    refine written_empty fun start ts hts => ⟨rfl, ?_⟩
    obtain ⟨t, us, rfl, hkind, -⟩ := hopens start ts hts
    intro v hv
    cases hv
    simp [hkind]
  have hwritten := (written_hash _).seq ((written_spaced isIdent_define _).seq
    ((written_oneWord hname hbreaks).seq hnone))
  apply hwritten.imp
  intro a e hparts
  rcases hparts with ⟨b, hb, c, hc, _, ⟨n, rfl, hkind, rfl⟩, rfl, hnext⟩
  exact .define hb hc hkind hnext

theorem written_defineValue {name value : String} (hname : IsIdent name)
    (hvalue : IsIdent value) :
    Written (Directed (.define name (some value)))
      (Directive.write (.define name (some value)) ('\n' :: rest))
      ('\n' :: rest) := by
  have hblank : Breaks (' ' :: put value ('\n' :: rest)) := rfl
  have hbreaks : Breaks ('\n' :: rest) := rfl
  have hwritten := (written_hash _).seq ((written_spaced isIdent_define _).seq
    ((written_oneWord hname hblank).seq
      (written_oneWord hvalue hbreaks).blank))
  apply hwritten.imp
  intro a e hparts
  rcases hparts with
    ⟨b, hb, c, hc, _, ⟨n, rfl, hkind, rfl⟩, v, rfl, hvkind, rfl⟩
  exact .defineValue hb hc hkind hvkind

theorem written_include {path : String} (hpath : '"' ∉ path.toList) :
    Written (Directed (.include path))
      (Directive.write (.include path) rest) rest := by
  have hliteral : Written (Literal (String.ofList path.toList))
      ('"' :: put path ('"' :: rest)) rest := written_literal hpath
  rw [String.ofList_toList] at hliteral
  have hwritten := (written_hash _).seq
    ((written_spaced isIdent_include _).seq hliteral)
  apply hwritten.imp
  intro a d hparts
  rcases hparts with ⟨b, hb, c, hc, hd⟩
  exact .include hb hc hd

theorem written_directive {d : Directive} (hd : d.WellShaped) :
    Written (Directed d) (d.write ('\n' :: rest)) ('\n' :: rest) := by
  cases hd with
  | @define name value hname hvalue =>
      cases value with
      | none => exact written_defineName hname
      | some value => exact written_defineValue hname (hvalue value rfl)
  | «include» hpath => exact written_include hpath

theorem written_directives {ds : List Directive}
    (hds : ∀ d ∈ ds, d.WellShaped) {is : List Item} {mid : List Char}
    (h : Written (Items is) mid rest) :
    Written (Items (ds.map .directive ++ is))
      (ds.foldr (fun d rest => d.write ('\n' :: rest)) mid) rest := by
  induction ds with
  | nil => exact h
  | cons d ds ih =>
      have hmore := ih fun e he => hds e (List.mem_cons_of_mem d he)
      have hwritten := (written_directive (hds d List.mem_cons_self)).seq
        (written_line hmore)
      apply hwritten.imp
      intro a c hparts
      rcases hparts with ⟨b, hb, hc⟩
      exact .directive hb hc

end Idl.Grammar
