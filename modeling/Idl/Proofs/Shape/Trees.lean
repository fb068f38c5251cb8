import Idl.Proofs.Assembly.Preorder
import Idl.Proofs.Shape.Phrases

/-!
# The tree of a source is well-shaped

Every declaration and every directive of the grammar gives a well-shaped value
where it stands in a source, and so do their bodies.  Placing an item adds such
a value to the tree, or a module with a heading for its name, so by induction
on the items a tree that was well-shaped stays so.  As the modules are numbered
in the order in which they are opened, the tree of a source is well-shaped as a
whole.
-/

namespace Idl

namespace Grammar

section
variable {a b : List Token}

/-! ## Entries -/

theorem shapes_field : Shapes Field fun m => Declares m.type m.name := by
  intro m a b h ha
  cases h with
  | intro htype hname hend =>
      have hdeclares := htype.declares hname ha
      exact ⟨hdeclares.1, hend.spelt hdeclares.2⟩

theorem Commas.spelt (h : Commas a b) (ha : Spelt a) : Spelt b := by
  induction h with
  | nil => exact ha
  | cons hcomma _ ih => exact ih (hcomma.spelt ha)

theorem shapes_enumerator : Shapes Enumerator IsIdent := by
  intro name a b h ha
  cases h with
  | intro hname hcommas =>
      have hword := shapes_word _ _ _ hname ha
      exact ⟨hword.1, hcommas.spelt hword.2⟩

theorem shapes_passed : Shapes Passed Parameter.WellShaped := by
  intro p a b h ha
  cases h with
  | named hdirection htype hname =>
      have hword := shapes_word _ _ _ hdirection ha
      have hdeclares := htype.declares hname hword.2
      exact ⟨.named hdeclares.1, hdeclares.2⟩
  | unnamed hdirection htype =>
      have hword := shapes_word _ _ _ hdirection ha
      have hplain := htype.isPlain hword.2
      exact ⟨.unnamed hplain.1, hplain.2⟩

theorem shapes_signature :
    Shapes Signature fun ps => ∀ p ∈ ps, p.WellShaped := by
  intro ps a b h ha
  cases h with
  | empty hclose hend =>
      exact ⟨List.forall_mem_nil _, hend.spelt (hclose.spelt ha)⟩
  | parameters hps hclose hend =>
      have hall := shapes_separated shapes_passed .comma _ _ _ hps ha
      have hclosed := hclose.spelt hall.2
      cases hend with
      | taken hsemicolon => exact ⟨hall.1, hsemicolon.spelt hclosed⟩
      | absent => exact ⟨hall.1, hclosed⟩

/-- The result of a method is no `long` in front of another one. -/
theorem Typed.separate {t : TypeRef} {name : String} {c : List Token}
    (htype : Typed t a b) (hname : DeclaredText name b c) (ha : Spelt a) :
    Separate t name := by
  intro hlong
  cases hname with
  | intro hdeclared =>
      have hrest := (htype.isPlain ha).2
      exact (hdeclared.firstSegment_eq hrest (htype.not_aheadWord hlong)).2

theorem shapes_called : Shapes Called Method.WellShaped := by
  intro m a b h ha
  cases h with
  | intro hresult hname hopen hps =>
      have hplain := hresult.isPlain ha
      have hheading := shapes_declaredText _ _ _ hname hplain.2
      have hsignature := shapes_signature _ _ _ hps (hopen.spelt hheading.2)
      exact ⟨⟨hplain.1, hheading.1, hresult.separate hname ha, hsignature.1⟩,
        hsignature.2⟩

theorem shapes_selected : Shapes Selected UnionCase.WellShaped := by
  intro c a b h ha
  cases h with
  | intro hword hopen hselector hclose hcolon hfield =>
      have hcase := shapes_word _ _ _ hword ha
      have hplain := hselector.isPlain (hopen.spelt hcase.2)
      have hmember := shapes_field _ _ _ hfield
        (hcolon.spelt (hclose.spelt hplain.2))
      exact ⟨⟨hplain.1, hmember.1⟩, hmember.2⟩

/-! ## Directives and bodies -/

theorem shapes_directed : Shapes Directed Directive.WellShaped := by
  intro d a b h ha
  cases h with
  | define hhash hword hname =>
      have hrest := (shapes_word _ _ _ hword (hhash.spelt ha)).2
      have hall := List.forall_mem_cons.mp hrest
      have hnone : ∀ v ∈ (none : Option String), IsIdent v := fun v hv =>
        (Option.not_mem_none v hv).elim
      exact ⟨.define (hall.1.isIdent hname) hnone, hall.2⟩
  | @defineValue n v _ _ _ hhash hword hname hvalue =>
      have hrest := (shapes_word _ _ _ hword (hhash.spelt ha)).2
      have hall := List.forall_mem_cons.mp hrest
      have hmore := List.forall_mem_cons.mp hall.2
      have hsome : ∀ w ∈ some v.text, IsIdent w := fun w hw =>
        Option.mem_some_iff.mp hw ▸ hmore.1.isIdent hvalue
      exact ⟨.define (hall.1.isIdent hname) hsome, hmore.2⟩
  | «include» hhash hword hpath =>
      have hrest := (shapes_word _ _ _ hword (hhash.spelt ha)).2
      have hliteral := shapes_literal _ _ _ hpath hrest
      exact ⟨.include hliteral.1, hliteral.2⟩

section
variable {α : Type} {entry : α → Phrase} {shape : α → Prop} {xs : List α}
  {ds : List Directive}

theorem Entries.shaped (h : Entries entry xs ds a b)
    (hentry : Shapes entry shape) (ha : Spelt a) :
    (∀ x ∈ xs, shape x) ∧ (∀ d ∈ ds, d.WellShaped) ∧ Spelt b := by
  induction h with
  | nil => exact ⟨List.forall_mem_nil _, List.forall_mem_nil _, ha⟩
  | ignored _ _ ih => exact ih (List.forall_mem_cons.mp ha).2
  | directive hdirective _ ih =>
      have hhere := shapes_directed _ _ _ hdirective ha
      have hmore := ih hhere.2
      exact ⟨hmore.1, List.forall_mem_cons.mpr ⟨hhere.1, hmore.2.1⟩,
        hmore.2.2⟩
  | entry hfirst _ ih =>
      have hhere := hentry _ _ _ hfirst ha
      have hmore := ih hhere.2
      exact ⟨List.forall_mem_cons.mpr ⟨hhere.1, hmore.1⟩, hmore.2⟩

theorem Braced.shaped (h : Braced entry xs ds a b)
    (hentry : Shapes entry shape) (ha : Spelt a) :
    (∀ x ∈ xs, shape x) ∧ (∀ d ∈ ds, d.WellShaped) ∧ Spelt b := by
  cases h with
  | intro hopen hbody hclose =>
      have hall := hbody.shaped hentry (hopen.spelt ha)
      exact ⟨hall.1, hall.2.1, hclose.spelt hall.2.2⟩

end

/-! ## Declarations -/

theorem shapes_bases : Shapes Bases fun bases => ∀ b ∈ bases, IsHeading b := by
  intro bases a b h ha
  cases h with
  | absent => exact ⟨List.forall_mem_nil _, ha⟩
  | given hcolon hbases =>
      exact shapes_separated shapes_declaredText .comma _ _ _ hbases
        (hcolon.spelt ha)

theorem DeclaredItem.shaped {d : Declaration} {ds : List Directive}
    (h : DeclaredItem d ds a b) (ha : Spelt a) :
    d.WellShaped ∧ (∀ d ∈ ds, d.WellShaped) ∧ Spelt b := by
  cases h with
  | typedef hword hfield =>
      have hrest := (shapes_word _ _ _ hword ha).2
      have hmember := shapes_field _ _ _ hfield hrest
      exact ⟨.typedef hmember.1, List.forall_mem_nil _, hmember.2⟩
  | constant hword htype hname hequals hvalue hend =>
      have hrest := (shapes_word _ _ _ hword ha).2
      have hdeclares := htype.declares hname hrest
      have hshape := shapes_value _ _ _ hvalue (hequals.spelt hdeclares.2)
      exact ⟨.constant hdeclares.1 hshape.1, List.forall_mem_nil _,
        hend.spelt hshape.2⟩
  | struct hword hname hbases hbody =>
      have hrest := (shapes_word _ _ _ hword ha).2
      have hheading := shapes_declaredText _ _ _ hname hrest
      have hderived := shapes_bases _ _ _ hbases hheading.2
      have hall := hbody.shaped shapes_field hderived.2
      exact ⟨.struct hheading.1 hderived.1 hall.1, hall.2⟩
  | enum hword hname hbody =>
      have hrest := (shapes_word _ _ _ hword ha).2
      have hheading := shapes_declaredText _ _ _ hname hrest
      have hall := hbody.shaped shapes_enumerator hheading.2
      exact ⟨.enum hheading.1 hall.1, hall.2⟩
  | forward hword hname hend =>
      have hrest := (shapes_word _ _ _ hword ha).2
      have hheading := shapes_declaredText _ _ _ hname hrest
      exact ⟨.interface hheading.1 (List.forall_mem_nil _)
        (List.forall_mem_nil _), List.forall_mem_nil _, hend.spelt hheading.2⟩
  | interface hword hname hbases hbody =>
      have hrest := (shapes_word _ _ _ hword ha).2
      have hheading := shapes_declaredText _ _ _ hname hrest
      have hderived := shapes_bases _ _ _ hbases hheading.2
      have hall := hbody.shaped shapes_called hderived.2
      exact ⟨.interface hheading.1 hderived.1 hall.1, hall.2⟩
  | union hword hname hswitch hopen htype hclose hbody =>
      have hrest := (shapes_word _ _ _ hword ha).2
      have hheading := shapes_declaredText _ _ _ hname hrest
      have hbehind := (shapes_word _ _ _ hswitch hheading.2).2
      have hplain := htype.isPlain (hopen.spelt hbehind)
      have hall := hbody.shaped shapes_selected (hclose.spelt hplain.2)
      exact ⟨.union hheading.1 hplain.1 hall.1, hall.2⟩

end

end Grammar

/-! ## Trees -/

theorem ModuleDecl.mem_declarations_declare {m : ModuleDecl}
    {d e : Declaration} (h : e ∈ (m.declare d).declarations) :
    e = d ∨ e ∈ m.declarations := by
  cases d <;>
    simp only [declare, declarations, List.map_append, List.mem_append,
      List.map_cons, List.map_nil, List.mem_singleton] at h ⊢ <;>
    tauto

namespace ModuleTree

/-- Everything that stands in the tree has the shape that its place asks
for. -/
structure Shaped (t : ModuleTree) : Prop where
  names : ∀ id, root < id → id < t.count → IsHeading (t.get id).name
  declarations : ∀ id, id < t.count →
    ∀ d ∈ (t.get id).declarations, d.WellShaped
  directives : ∀ d ∈ t.directives, d.WellShaped

section
variable {t : ModuleTree} {id : Nat}

theorem shaped_empty : Shaped .empty where
  names id hpos hid := by
    have hone : id < 1 := hid
    rw [root] at hpos
    omega
  declarations id hid d hd := by
    have hroot : id = 0 := Nat.lt_one_iff.mp hid
    subst hroot
    cases hd
  directives := List.forall_mem_nil _

theorem Shaped.addDirectives (h : t.Shaped) {ds : List Directive}
    (hds : ∀ d ∈ ds, d.WellShaped) : (ds.foldl addDirective t).Shaped := by
  induction ds generalizing t with
  | nil => exact h
  | cons d ds ih =>
      have hall := List.forall_mem_cons.mp hds
      have hone : (t.addDirective d).Shaped :=
        ⟨h.names, h.declarations, List.forall_mem_append.mpr
          ⟨h.directives, List.forall_mem_singleton.mpr hall.1⟩⟩
      exact ih hone hall.2

theorem Shaped.declare (h : t.Shaped) {d : Declaration}
    (hd : d.WellShaped) : (t.declare id d).Shaped where
  names other hpos hother := by
    have hname : ((t.declare id d).get other).name = (t.get other).name :=
      get_modify_unchanged fun m => m.name_declare d
    rw [hname]
    exact h.names other hpos (by simpa [ModuleTree.declare] using hother)
  declarations other hother e he := by
    have hlt : other < t.count := by simpa [ModuleTree.declare] using hother
    by_cases hsame : other = id
    · subst hsame
      rw [ModuleTree.declare, get_modify_self hlt] at he
      rcases ModuleDecl.mem_declarations_declare he with rfl | hold
      · exact hd
      · exact h.declarations other hlt e hold
    · rw [ModuleTree.declare, get_modify_of_ne hsame] at he
      exact h.declarations other hlt e he
  directives := h.directives

theorem Shaped.addChild (h : t.Shaped) (hid : id < t.count) {name : String}
    (hname : IsHeading name) : (t.addChild id name).Shaped := by
  have hdeclarations : ∀ other, other ≠ t.count →
      ((t.addChild id name).get other).name = (t.get other).name ∧
      ((t.addChild id name).get other).declarations =
        (t.get other).declarations := by
    intro other hother
    by_cases hsame : other = id
    · rw [hsame, get_addChild_parent hid]
      exact ⟨rfl, rfl⟩
    · rw [get_addChild_of_ne hother hsame]
      exact ⟨rfl, rfl⟩
  refine ⟨fun other hpos hother => ?_, fun other hother d hd => ?_,
    h.directives⟩
  · rw [count_addChild] at hother
    by_cases hnew : other = t.count
    · rw [hnew, get_addChild_self hid]
      exact hname
    · rw [(hdeclarations other hnew).1]
      exact h.names other hpos (by omega)
  · rw [count_addChild] at hother
    by_cases hnew : other = t.count
    · rw [hnew, get_addChild_self hid] at hd
      cases hd
    · rw [(hdeclarations other hnew).2] at hd
      exact h.declarations other (by omega) d hd

end

end ModuleTree

open Grammar ModuleTree

/-- Placing the items of a source keeps a tree in shape. -/
theorem Grammar.Items.shaped {is : List Item} {a b : List Token}
    (h : Items is a b) (ha : Spelt a) :
    Spelt b ∧ ∀ id (t : ModuleTree), id < t.count → t.Shaped →
      (placeItems id t is).Shaped := by
  induction h with
  | nil => exact ⟨ha, fun _ _ _ ht => ht⟩
  | ignored _ _ ih => exact ih (List.forall_mem_cons.mp ha).2
  | directive hdirective _ ih =>
      have hhere := shapes_directed _ _ _ hdirective ha
      have hmore := ih hhere.2
      refine ⟨hmore.1, fun id t hid ht => ?_⟩
      exact hmore.2 id _ hid
        (ht.addDirectives (List.forall_mem_singleton.mpr hhere.1))
  | @declaration d ds is _ _ _ hdeclaration _ ih =>
      have hhere := hdeclaration.shaped ha
      have hmore := ih hhere.2.2
      refine ⟨hmore.1, fun id t hid ht => ?_⟩
      have hextends := extends_placeItem id t (.declaration d ds)
      exact hmore.2 id _ (Nat.lt_of_lt_of_le hid hextends.count_le)
        ((ht.declare hhere.1).addDirectives hhere.2.1)
  | @module name body is _ _ _ _ _ _ _ hword hname hopen _ hclose _ ihbody ih =>
      have hrest := (shapes_word _ _ _ hword ha).2
      have hheading := shapes_declaredText _ _ _ hname hrest
      have hinner := ihbody (hopen.spelt hheading.2)
      have hmore := ih (hclose.spelt hinner.1)
      refine ⟨hmore.1, fun id t hid ht => ?_⟩
      have hextends := extends_placeItem id t (.module name body)
      have hnew : t.count < (t.addChild id name).count := by
        rw [count_addChild]
        omega
      exact hmore.2 id _ (Nat.lt_of_lt_of_le hid hextends.count_le)
        (hinner.2 t.count _ hnew (ht.addChild hid hheading.1))

theorem Grammar.Source.wellShaped {ts : List Token} {t : ModuleTree}
    (h : Source ts t) (hts : Spelt ts) : t.WellShaped := by
  have hnumbered := h.numbered
  rcases h with ⟨is, hitems, rfl⟩
  have hshaped := (hitems.shaped hts).2 root .empty (by decide) shaped_empty
  have hextends := extends_placeItems root .empty is
  have hroot : (placeItems root .empty is).parent? root = none :=
    hnumbered.2
  exact {
    rootName := hextends.name root (by decide)
    rootParent := hroot
    numbered := hnumbered.1
    names := hshaped.names
    declarations := hshaped.declarations
    directives := hshaped.directives }

theorem Tiles.spelt {offset : Nat} {cs : List Char} {ts : List Token}
    (h : Tiles offset cs ts) : Spelt ts := by
  induction h with
  | last => exact List.forall_mem_nil _
  | token _ hspelled _ _ _ _ _ ih =>
      exact List.forall_mem_cons.mpr ⟨hspelled, ih⟩

/-- The tree of a source has a derivation in the grammar, over tokens that can
be spelled. -/
theorem exists_source_of_parseSource {source : String} {t : ModuleTree}
    (h : parseSource source = .ok t) : ∃ ts, Spelt ts ∧ Source ts t := by
  unfold parseSource at h
  cases hlex : lex source with
  | error e =>
      rw [hlex] at h
      cases h
  | ok ts =>
      rw [hlex] at h
      cases hparse : parse ts with
      | error e =>
          simp only [hparse] at h
          cases h
      | ok tree =>
          simp only [hparse] at h
          cases h
          exact ⟨ts, (tiles_of_lexed hlex).spelt, source_of_parse hparse⟩

/-- Every tree that comes from a source is well-shaped. -/
theorem wellShaped_of_parseSource {source : String} {t : ModuleTree}
    (h : parseSource source = .ok t) : t.WellShaped := by
  rcases exists_source_of_parseSource h with ⟨ts, hts, hsource⟩
  exact hsource.wellShaped hts

/-- A source can be lexed and then parsed step by step. -/
theorem parseSource_eq_of_runningFor {source : String} {fin : Assembly}
    (h : (lex source).map (fun ts => runningFor (ts.length + 1) .start ts) =
      .ok (.ok (fin, [])))
    (hscopes : fin.scopes = []) : parseSource source = .ok fin.tree := by
  cases hlex : lex source with
  | error e =>
      rw [hlex] at h
      cases h
  | ok ts =>
      rw [hlex] at h
      have hrun := run_eq_of_runningFor (Except.ok.inj h)
      rw [parseSource, hlex]
      simp only [parse_eq_ok_of_run hrun hscopes]

/-- A definition, and in a module an interface with a base and an
enumeration. -/
theorem wellShaped_of_parseSource_enumInModule :
    ∃ t, parseSource ("#define N 4\nmodule a::b[2] \x7b " ++
        "interface i : c[N] \x7b \x7d; enum e \x7b x, y \x7d \x7d;") = .ok t ∧
      (t.get 1).name = "a::b[2]" ∧ t.WellShaped := by
  have hrun : (lex ("#define N 4\nmodule a::b[2] \x7b " ++
      "interface i : c[N] \x7b \x7d; enum e \x7b x, y \x7d \x7d;")).map
      (fun ts => runningFor (ts.length + 1) .start ts) = .ok (.ok
        (⟨⟨#[⟨"", none, [1], [], [], [], [], [], []⟩,
          ⟨"a::b[2]", some 0, [], [⟨"i", ["c[N]"], []⟩], [], [], [],
            [⟨"e", ["x", "y"]⟩], []⟩],
          [.define "N" (some "4")]⟩, root, []⟩, [])) := by
    decide +kernel
  have hparse := parseSource_eq_of_runningFor hrun rfl
  exact ⟨_, hparse, rfl, wellShaped_of_parseSource hparse⟩

end Idl
