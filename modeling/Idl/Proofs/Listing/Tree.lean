import Idl.Proofs.Listing.Sections
import Idl.Proofs.Shape.Trees

/-!
# The listing of a tree tells the tree

A headline tells the path of a module, and with the path of its parent it tells
the name.  The numbers of modules are not listed, but the modules of a source
are numbered in the order of their headlines.  So two trees with the same lines
have, module by module, the same names, declarations and numbers.
-/

namespace Idl.ModuleTree

section
variable {t u : ModuleTree} {parent first last depth : Nat}
  {children : List Nat}

/-! ## Lines of modules -/

/-- The lines of the modules below a parent. -/
def childrenListing (t : ModuleTree) (parent : Nat) (children : List Nat)
    (depth : Nat) : List ListingLine :=
  children.flatMap fun child =>
    if parent < child ∧ child < t.count then
      t.moduleListing child depth
    else
      []

theorem moduleListing_eq (t : ModuleTree) (id depth : Nat) :
    t.moduleListing id depth = ⟨depth, t.headline id⟩ ::
      ((t.get id).listing (depth + 1) ++
        t.childrenListing id (t.children id) (depth + 1)) := by
  rw [moduleListing]
  rfl

theorem childrenListing_cons (hlt : parent < first)
    (hcount : first < t.count) :
    t.childrenListing parent (first :: children) depth =
      ⟨depth, t.headline first⟩ :: ((t.get first).listing (depth + 1) ++
        (t.childrenListing first (t.children first) (depth + 1) ++
          t.childrenListing parent children depth)) := by
  have hhere : (if parent < first ∧ first < t.count then
      t.moduleListing first depth else []) = t.moduleListing first depth :=
    if_pos ⟨hlt, hcount⟩
  rw [childrenListing, List.flatMap_cons, hhere, moduleListing_eq]
  simp [childrenListing]

theorem childrenListing_cons_append (hlt : parent < first)
    (hcount : first < t.count) (rest : List ListingLine) :
    t.childrenListing parent (first :: children) depth ++ rest =
      ⟨depth, t.headline first⟩ :: ((t.get first).listing (depth + 1) ++
        (t.childrenListing first (t.children first) (depth + 1) ++
          (t.childrenListing parent children depth ++ rest))) := by
  rw [childrenListing_cons hlt hcount]
  simp only [List.cons_append, List.append_assoc]

theorem headline_of_parent {id : Nat} (hparent : t.parent? id = some parent) :
    t.headline id = "Module: " ++ t.path id := by
  rw [headline, hparent]

theorem headline_of_none {id : Nat} (hparent : t.parent? id = none) :
    t.headline id = "Module: (root)" := by
  rw [headline, hparent]

/-- No title is the headline of a module. -/
theorem length_le_idxOf_headline (t : ModuleTree) (id : Nat) :
    sortTitles.length ≤ sortTitles.idxOf (t.headline id) := by
  have htitle : ∀ title ∈ sortTitles, title.toList.head? ≠ some 'M' := by
    decide
  have hfront : (t.headline id).toList.head? = some 'M' := by
    cases hparent : t.parent? id with
    | none =>
        rw [headline_of_none hparent]
        rfl
    | some p =>
        rw [headline_of_parent hparent, String.toList_append]
        rfl
  have hnot : t.headline id ∉ sortTitles := fun hmem =>
    htitle _ hmem hfront
  exact Nat.le_of_eq (List.idxOf_eq_length hnot).symm

theorem Numbered.heads (h : t.Numbered parent first children last)
    (hlt : parent < first) (hlast : last ≤ t.count) {rest : List ListingLine}
    (hrest : Heads depth sortTitles.length rest) :
    Heads (depth + 1) sortTitles.length
      (t.childrenListing parent children depth ++ rest) := by
  cases h with
  | nil => exact hrest.mono (Nat.le_succ depth) (Nat.le_refl _)
  | cons _ hinner hmore =>
      have hcount : first < t.count := by
        have hle := hinner.le
        have hle' := hmore.le
        omega
      rw [childrenListing_cons_append hlt hcount]
      exact heads_cons (Nat.lt_succ_self depth) (t.length_le_idxOf_headline _)

/-! ## Names -/

theorem intercalate_concat_inj {mark : String} {names : List String}
    {v w : String} (h : String.intercalate mark (names ++ [v]) =
      String.intercalate mark (names ++ [w])) : v = w := by
  cases names with
  | nil => simpa using h
  | cons name names =>
      have hfront : ∀ x : String, String.intercalate mark
          (name :: names ++ [x]) =
            String.intercalate mark (name :: names) ++ mark ++ x := by
        intro x
        rw [String.intercalate_append_of_ne_nil (by simp) (by simp),
          String.intercalate_singleton]
      rw [hfront, hfront] at h
      exact (String.append_right_inj _).mp h

/-- Below parents of one path, a headline tells the name. -/
theorem name_eq_of_headline (hlt : parent < first)
    (hparent : t.parent? first = some parent)
    (hparent' : u.parent? first = some parent)
    (hsegments : t.segments parent = u.segments parent)
    (h : t.headline first = u.headline first) :
    (t.get first).name = (u.get first).name := by
  rw [headline_of_parent hparent, headline_of_parent hparent'] at h
  have hpath : t.path first = u.path first :=
    (String.append_right_inj _).mp h
  rw [path, path, segments_of_parent hparent hlt,
    segments_of_parent hparent' hlt, hsegments] at hpath
  exact intercalate_concat_inj hpath

/-! ## Modules -/

theorem get_eq_of_parts {id : Nat}
    (hname : (t.get id).name = (u.get id).name)
    (hparent : t.parent? id = u.parent? id)
    (hchildren : t.children id = u.children id)
    (hsorts : (t.get id).SameSorts (u.get id)) : t.get id = u.get id := by
  unfold parent? at hparent
  unfold children at hchildren
  generalize t.get id = m at *
  generalize u.get id = n at *
  rcases m with ⟨name, parent, children, is, ts, ss, cs, es, us⟩
  rcases hsorts with ⟨rfl, rfl, rfl, rfl, rfl, rfl⟩
  cases hname
  cases hparent
  cases hchildren
  rfl

/-- The lines of the modules below a parent tell their numbers, everything they
declare, and which modules are nested in them. -/
theorem Numbered.eq_of_listing (ht : t.Numbered parent first children last)
    (hlast : last ≤ t.count) (hdt : ∀ id < t.count, (t.get id).WellDeclared)
    (hdu : ∀ id < u.count, (u.get id).WellDeclared)
    (hlt : parent < first) (hsegments : t.segments parent = u.segments parent)
    {children' : List Nat} {last' : Nat}
    (hu : u.Numbered parent first children' last') (hlast' : last' ≤ u.count)
    {r s : List ListingLine} (hr : Heads depth sortTitles.length r)
    (hs : Heads depth sortTitles.length s)
    (h : t.childrenListing parent children depth ++ r =
      u.childrenListing parent children' depth ++ s) :
    (children = children' ∧ last = last' ∧ r = s) ∧
      ∀ id, first ≤ id → id < last → t.get id = u.get id := by
  induction ht generalizing depth children' last' r s with
  | @nil parent first =>
      cases hu with
      | nil => exact ⟨⟨rfl, rfl, h⟩, fun id hle hid => by omega⟩
      | cons _ hinner hmore =>
          have hle := hinner.le
          have hle' := hmore.le
          rw [childrenListing_cons_append hlt (by omega)] at h
          exact absurd h (hr.ne_cons (Nat.le_refl depth))
  | @cons parent first mid last children hparent hinner hmore ihinner ihmore =>
      have hle := hinner.le
      have hle' := hmore.le
      cases hu with
      | nil =>
          rw [childrenListing_cons_append hlt (by omega)] at h
          exact absurd h.symm (hs.ne_cons (Nat.le_refl depth))
      | @cons _ _ mid' _ children' hparent' hinner' hmore' =>
          have hge := hinner'.le
          have hge' := hmore'.le
          rw [childrenListing_cons_append hlt (by omega),
            childrenListing_cons_append hlt (by omega)] at h
          have hparts := List.cons.inj h
          have hname := name_eq_of_headline hlt hparent hparent' hsegments
            (ListingLine.mk.inj hparts.1).2
          have hbehind := hmore.heads (by omega) hlast hr
          have hbehind' := hmore'.heads (by omega) hlast' hs
          have hsorts := ModuleDecl.listing_tells (hdt first (by omega))
            (hdu first (by omega))
            (hinner.heads (Nat.lt_succ_self first) (by omega) hbehind)
            (hinner'.heads (Nat.lt_succ_self first) (by omega) hbehind')
            hparts.2
          have hpath : t.segments first = u.segments first := by
            rw [segments_of_parent hparent hlt, segments_of_parent hparent' hlt,
              hsegments, hname]
          have hnested := ihinner (by omega) (Nat.lt_succ_self first) hpath
            hinner' (by omega) hbehind hbehind' hsorts.2
          rcases hnested with ⟨⟨hchildren, rfl, hrest⟩, hgets⟩
          have hothers := ihmore hlast (by omega) hsegments hmore' hlast' hr hs
            hrest
          rcases hothers with ⟨⟨rfl, rfl, rfl⟩, hgets'⟩
          have hself : t.get first = u.get first :=
            get_eq_of_parts hname (hparent.trans hparent'.symm) hchildren
              hsorts.1
          refine ⟨⟨rfl, rfl, rfl⟩, fun id hlow hhigh => ?_⟩
          by_cases hfirst : id = first
          · rw [hfirst]
            exact hself
          · by_cases hinside : id < mid
            · exact hgets id (by omega) hinside
            · exact hgets' id (by omega) hhigh

/-! ## Legible lines -/

theorem legible_headline {id : Nat} (h : ∀ w ∈ t.segments id, Clean w) :
    ListingLine.Legible ⟨depth, t.headline id⟩ := by
  have hmodule : Neat "Module" := IsIdent.neat (by decide)
  cases hparent : t.parent? id with
  | none =>
      have hroot : Clean ": (root)" := by decide
      have htext : "Module: (root)" = "Module" ++ ": (root)" := by decide
      rw [headline_of_none hparent, htext]
      exact ListingLine.legible_of_neat (hmodule.append hroot)
  | some p =>
      have hcolon : Clean ": " := by decide
      have hmark : Clean "::" := by decide
      have htext : "Module: " = "Module" ++ ": " := by decide
      have hpath : Clean (t.path id) := clean_intercalate hmark h
      rw [headline_of_parent hparent, htext]
      exact ListingLine.legible_of_neat ((hmodule.append hcolon).append hpath)

/-- Every value of a constant is a single line. -/
def SingleLineValues (t : ModuleTree) : Prop :=
  ∀ id < t.count, ∀ c ∈ (t.get id).constants, '\n' ∉ c.value.toList

theorem Numbered.allLegible (h : t.Numbered parent first children last)
    (hlt : parent < first) (hlast : last ≤ t.count)
    (hnames : ∀ id, root < id → id < t.count → IsHeading (t.get id).name)
    (hdeclared : ∀ id < t.count, (t.get id).WellDeclared)
    (hvalues : t.SingleLineValues)
    (hsegments : ∀ w ∈ t.segments parent, Clean w) :
    AllLegible (t.childrenListing parent children depth) := by
  induction h generalizing depth with
  | nil => exact List.forall_mem_nil _
  | @cons parent first mid last children hparent hinner hmore ihinner ihmore =>
      have hle := hinner.le
      have hle' := hmore.le
      have hcount : first < t.count := by omega
      have hname := hnames first (by simp only [root]; omega) hcount
      have hpath : ∀ w ∈ t.segments first, Clean w := by
        rw [segments_of_parent hparent hlt]
        exact List.forall_mem_append.mpr
          ⟨hsegments, List.forall_mem_singleton.mpr hname.neat.clean⟩
      have hdeclarations : AllLegible ((t.get first).listing (depth + 1)) :=
        (hdeclared first hcount).allLegible (hvalues first hcount)
      have hnested : AllLegible
          (t.childrenListing first (t.children first) (depth + 1)) :=
        ihinner (Nat.lt_succ_self first) (by omega) hpath
      have hothers : AllLegible (t.childrenListing parent children depth) :=
        ihmore (by omega) hlast hsegments
      rw [childrenListing_cons hlt hcount]
      exact allLegible_cons (legible_headline hpath)
        (hdeclarations.append (hnested.append hothers))

theorem WellShaped.allLegible (h : t.WellShaped)
    (hvalues : t.SingleLineValues) : AllLegible t.listing := by
  have hpos : root < t.count := h.numbered.le
  have hsegments : ∀ w ∈ t.segments root, Clean w := by
    rw [segments_of_none h.rootParent]
    exact List.forall_mem_nil _
  have hdeclarations : AllLegible ((t.get root).listing 1) :=
    ModuleDecl.WellDeclared.allLegible (h.declarations root hpos)
      (hvalues root hpos)
  have hmodules : AllLegible (t.childrenListing root (t.children root) 1) :=
    h.numbered.allLegible (Nat.lt_succ_self root) (Nat.le_refl _) h.names
      h.declarations hvalues hsegments
  rw [listing, moduleListing_eq]
  exact (allLegible_map fun d _ => legible_directive d).append
    (allLegible_cons (legible_headline hsegments)
      (hdeclarations.append hmodules))

/-! ## Whole trees -/

/-- Lines in front of a line that is none of them. -/
theorem map_append_inj {α : Type} {line : α → ListingLine} {xs ys : List α}
    {l : ListingLine} {r s : List ListingLine}
    (hline : Function.Injective line) (hl : ∀ x, line x ≠ l)
    (h : xs.map line ++ l :: r = ys.map line ++ l :: s) : xs = ys ∧ r = s := by
  have hfront : ∀ zs : List α, ∀ k ∈ zs.map line, (k != l) = true := by
    intro zs k hk
    rcases List.mem_map.mp hk with ⟨x, -, rfl⟩
    exact bne_iff_ne.mpr (hl x)
  have hstop : (l != l) = false := bne_self_eq_false l
  have hparts := Text.append_inj_of_stop (hfront xs) (hfront ys) hstop hstop h
  exact ⟨hline.list_map hparts.1, (List.cons.inj hparts.2).2⟩

theorem directive_line_injective : Function.Injective fun d : Directive =>
    (⟨depth, "Directive: " ++ d.listing⟩ : ListingLine) := by
  intro d e hsame
  have htexts := (ListingLine.mk.inj hsame).2
  exact Directive.listing_inj ((String.append_right_inj _).mp htexts)

theorem directive_line_ne (d : Directive) :
    (⟨depth, "Directive: " ++ d.listing⟩ : ListingLine) ≠
      ⟨depth, "Module: (root)"⟩ := by
  intro hsame
  have htexts := congrArg String.toList (ListingLine.mk.inj hsame).2
  have hfront : "Directive: ".toList = 'D' :: "irective: ".toList := by decide
  have hfront' : "Module: (root)".toList = 'M' :: "odule: (root)".toList := by
    decide
  rw [String.toList_append, hfront, hfront'] at htexts
  exact absurd (List.cons.inj htexts).1 (by decide)

/-- Trees of the shape that sources have are told by their lines. -/
theorem WellShaped.eq_of_listing (ht : t.WellShaped) (hu : u.WellShaped)
    (h : t.listing = u.listing) : t = u := by
  have hpos : root < t.count := ht.numbered.le
  have hpos' : root < u.count := hu.numbered.le
  rw [listing, listing, moduleListing_eq, moduleListing_eq,
    headline_of_none ht.rootParent, headline_of_none hu.rootParent] at h
  have hdirectives := map_append_inj directive_line_injective
    directive_line_ne h
  have hlines : (t.get root).listing 1 ++
      (t.childrenListing root (t.children root) 1 ++ []) =
        (u.get root).listing 1 ++
          (u.childrenListing root (u.children root) 1 ++ []) := by
    simpa only [List.append_nil] using hdirectives.2
  have hnone : Heads 1 sortTitles.length [] := heads_nil
  have hheads := ht.numbered.heads (Nat.lt_succ_self root) (Nat.le_refl _) hnone
  have hheads' := hu.numbered.heads (Nat.lt_succ_self root) (Nat.le_refl _)
    hnone
  have hsorts := ModuleDecl.listing_tells (ht.declarations root hpos)
    (hu.declarations root hpos') hheads hheads' hlines
  have hsegments : t.segments root = u.segments root := by
    rw [segments_of_none ht.rootParent, segments_of_none hu.rootParent]
  have hmodules := ht.numbered.eq_of_listing (Nat.le_refl _) ht.declarations
    hu.declarations (Nat.lt_succ_self root) hsegments hu.numbered
    (Nat.le_refl _) hnone hnone hsorts.2
  refine ext_get hmodules.1.2.1 (fun id hid => ?_) hdirectives.1
  by_cases hself : id = root
  · rw [hself]
    exact get_eq_of_parts (ht.rootName.trans hu.rootName.symm)
      (ht.rootParent.trans hu.rootParent.symm) hmodules.1.1 hsorts.1
  · exact hmodules.2 id (Nat.pos_of_ne_zero hself) hid

end

end Idl.ModuleTree

namespace Idl

open Grammar ModuleTree

/-- Two sources whose trees are listed as the same text have the same tree, if
no value of a constant goes over a line end. -/
theorem eq_of_listing_eq {source source' : String} {t u : ModuleTree}
    (ht : parseSource source = .ok t) (hu : parseSource source' = .ok u)
    (hvalues : t.SingleLineValues) (hvalues' : u.SingleLineValues)
    (h : ListingLine.renderAll t.listing = ListingLine.renderAll u.listing) :
    t = u := by
  rcases exists_source_of_parseSource ht with ⟨ts, hts, hsource⟩
  rcases exists_source_of_parseSource hu with ⟨us, hus, hsource'⟩
  have hshape := hsource.wellShaped hts
  have hshape' := hsource'.wellShaped hus
  have hlines := ListingLine.renderAll_inj (hshape.allLegible hvalues)
    (hshape'.allLegible hvalues') h
  exact hshape.eq_of_listing hshape' hlines

/-- A constant of type `long`. -/
def oneConstant : ModuleTree :=
  ⟨#[⟨"", none, [], [], [], [], [⟨"n", .named "long", "5"⟩], [], []⟩], []⟩

def oneConstantTokens (a b c d e f : Span) : List Token :=
  [⟨.identifier, "const", a⟩, ⟨.identifier, "long", b⟩, ⟨.identifier, "n", c⟩,
    ⟨.equals, "", d⟩, ⟨.identifier, "5", e⟩, ⟨.semicolon, "", f⟩]

theorem source_oneConstant (a b c d e f : Span) :
    Source (oneConstantTokens a b c d e f) oneConstant := by
  have hconst : Word "const" (oneConstantTokens a b c d e f)
      ((oneConstantTokens a b c d e f).drop 1) :=
    One.terminal ⟨_, rfl, rfl, rfl⟩
  have hlong : Word "long" ((oneConstantTokens a b c d e f).drop 1)
      ((oneConstantTokens a b c d e f).drop 2) :=
    One.terminal ⟨_, rfl, rfl, rfl⟩
  have hn : Word "n" ((oneConstantTokens a b c d e f).drop 2)
      ((oneConstantTokens a b c d e f).drop 3) :=
    One.terminal ⟨_, rfl, rfl, rfl⟩
  have hequals : Mark .equals ((oneConstantTokens a b c d e f).drop 3)
      ((oneConstantTokens a b c d e f).drop 4) :=
    ⟨_, One.terminal ⟨_, rfl, rfl, rfl⟩⟩
  have hfive : Word "5" ((oneConstantTokens a b c d e f).drop 4)
      ((oneConstantTokens a b c d e f).drop 5) :=
    One.terminal ⟨_, rfl, rfl, rfl⟩
  have hend : Mark .semicolon ((oneConstantTokens a b c d e f).drop 5) [] :=
    ⟨_, One.terminal ⟨_, rfl, rfl, rfl⟩⟩
  have hbehindType : ∀ kind ≠ TokenKind.identifier,
      ¬ Ahead kind ((oneConstantTokens a b c d e f).drop 2) :=
    fun kind hkind h => hkind (h.unique (hn.ahead (by decide)))
  have hbehindName : ∀ kind ≠ TokenKind.equals,
      ¬ Ahead kind ((oneConstantTokens a b c d e f).drop 3) :=
    fun kind hkind => hequals.not_ahead hkind.symm (by decide)
  have hbehindValue : ∀ kind ≠ TokenKind.semicolon,
      ¬ Ahead kind ((oneConstantTokens a b c d e f).drop 5) :=
    fun kind hkind => hend.not_ahead hkind.symm (by decide)
  have hshort : ¬ AheadWord "long" ((oneConstantTokens a b c d e f).drop 2) :=
    eatWord?_eq_none_iff.mp rfl
  have htypeName : TypeName "long" "long" _ _ :=
    .intro (.plain (by decide)) (.short fun _ => hshort)
      (.nil (hbehindType .namespaces (by decide)))
  have htype : Typed (.named "long") _ _ :=
    .plain hlong (hbehindType .less (by decide)) htypeName
  have hname : Declared ⟨"n", none⟩ _ _ :=
    .intro hn (.nil (hbehindName .namespaces (by decide)))
      (.absent (hbehindName .openSquare (by decide)))
  have hvalue : Value "5" _ _ :=
    .word hfive (.nil (hbehindValue .identifier (by decide))
      (hbehindValue .literal (by decide)) (hbehindValue .less (by decide)))
  have hitem : DeclaredItem (.constant ⟨"n", .named "long", "5"⟩) [] _ [] :=
    .constant hconst htype hname hequals hvalue hend
  exact ⟨_, .declaration hitem .nil, rfl⟩

theorem parseSource_oneConstant {source : String} {a b c d e f : Span}
    (h : lex source = .ok (oneConstantTokens a b c d e f)) :
    parseSource source = .ok oneConstant := by
  rw [parseSource, h]
  simp only [(source_oneConstant a b c d e f).parse_eq]

/-- Two sources of one constant, which differ in their blanks. -/
theorem eq_of_listing_eq_otherBlanks :
    ∃ t u, parseSource "const long n = 5;" = .ok t ∧
      parseSource "const long  n=5 ;" = .ok u ∧
      t.SingleLineValues ∧ u.SingleLineValues ∧
      ListingLine.renderAll t.listing = ListingLine.renderAll u.listing ∧
      t = u := by
  have hlex : lex "const long n = 5;" = .ok (oneConstantTokens ⟨0, 5⟩ ⟨6, 10⟩
      ⟨11, 12⟩ ⟨13, 14⟩ ⟨15, 16⟩ ⟨16, 17⟩) := by
    decide +kernel
  have hlex' : lex "const long  n=5 ;" = .ok (oneConstantTokens ⟨0, 5⟩ ⟨6, 10⟩
      ⟨12, 13⟩ ⟨13, 14⟩ ⟨14, 15⟩ ⟨16, 17⟩) := by
    decide +kernel
  have hparse := parseSource_oneConstant hlex
  have hparse' := parseSource_oneConstant hlex'
  have hvalues : oneConstant.SingleLineValues := by
    unfold SingleLineValues
    decide
  exact ⟨_, _, hparse, hparse', hvalues, hvalues, rfl,
    eq_of_listing_eq hparse hparse' hvalues hvalues rfl⟩

end Idl
