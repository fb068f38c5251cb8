import Idl.Proofs.Module.Numbering
import Idl.Proofs.Rendering.Declarations
import Idl.Proofs.Grammar.Acceptance

/-!
# A tree is the parse of its source

The source of a well-shaped tree has the items of the grammar at its front, and
placing these builds the tree again.  Both follow the numbering: when the
modules below a parent have been read, the modules from the first to the last
number are those of the tree, the parent has got its children, and no other
module has changed.
-/

namespace Idl

/-! ## Placing declarations -/

namespace ModuleDecl

theorem foldl_declare_map {α : Type} (wrap : α → Declaration)
    (extend : List α → ModuleDecl → ModuleDecl)
    (hnil : ∀ m, extend [] m = m)
    (hcons : ∀ x xs m, extend xs (m.declare (wrap x)) = extend (x :: xs) m)
    (xs : List α) (m : ModuleDecl) :
    (xs.map wrap).foldl declare m = extend xs m := by
  induction xs generalizing m with
  | nil => exact (hnil m).symm
  | cons x xs ih => rw [List.map_cons, List.foldl_cons, ih, hcons]

/-- Declared one after the other in a module without declarations, the
declarations of a module make that module up to its place in the tree. -/
theorem foldl_declarations (m : ModuleDecl) (name : String)
    (parent : Option Nat) :
    m.declarations.foldl declare (fresh name parent) =
      { m with name := name, parent := parent, children := [] } := by
  have hinterfaces := foldl_declare_map Declaration.interface
    (fun xs m => { m with interfaces := m.interfaces ++ xs })
    (by simp) (by simp [declare])
  have htypedefs := foldl_declare_map Declaration.typedef
    (fun xs m => { m with typedefs := m.typedefs ++ xs })
    (by simp) (by simp [declare])
  have hstructs := foldl_declare_map Declaration.struct
    (fun xs m => { m with structs := m.structs ++ xs })
    (by simp) (by simp [declare])
  have hconstants := foldl_declare_map Declaration.constant
    (fun xs m => { m with constants := m.constants ++ xs })
    (by simp) (by simp [declare])
  have henums := foldl_declare_map Declaration.enum
    (fun xs m => { m with enums := m.enums ++ xs })
    (by simp) (by simp [declare])
  have hunions := foldl_declare_map Declaration.union
    (fun xs m => { m with unions := m.unions ++ xs })
    (by simp) (by simp [declare])
  simp only [declarations, List.foldl_append]
  rw [hinterfaces, htypedefs, hstructs, hconstants, henums, hunions]
  rfl

end ModuleDecl

open Grammar

def declarationItems (ds : List Declaration) : List Item :=
  ds.map (.declaration · [])

theorem placeItems_declarations (id : Nat) (t : ModuleTree)
    (ds : List Declaration) (is : List Item) :
    placeItems id t (declarationItems ds ++ is) =
      placeItems id (t.modify id (ds.foldl ModuleDecl.declare ·)) is := by
  induction ds generalizing t with
  | nil =>
      have hsame : t.modify id (fun m => m) = t :=
        ModuleTree.modify_eq_self fun _ => rfl
      simp only [List.foldl_nil, hsame]
      rfl
  | cons d ds ih =>
      have hmodify : (t.declare id d).modify id
          (ds.foldl ModuleDecl.declare ·) =
            t.modify id ((d :: ds).foldl ModuleDecl.declare ·) :=
        ModuleTree.modify_modify
      exact (ih (t.declare id d)).trans
        (congrArg (placeItems id · is) hmodify)

theorem placeItems_directives (id : Nat) (t : ModuleTree)
    (ds : List Directive) (is : List Item) :
    placeItems id t (ds.map .directive ++ is) =
      placeItems id { t with directives := t.directives ++ ds } is := by
  induction ds generalizing t with
  | nil => simp
  | cons d ds ih =>
      have hds := ih (t.addDirective d)
      rw [ModuleTree.addDirective, List.append_assoc] at hds
      exact hds

/-! ## Placing nested modules -/

namespace ModuleTree

/-- The second tree comes from the first by placing below the parent those
modules of `t` that have the numbers from the first to the last. -/
structure Placed (t u v : ModuleTree) (parent first : Nat)
    (children : List Nat) (last : Nat) : Prop where
  count : v.count = last
  get_new : ∀ id, first ≤ id → id < last → v.get id = t.get id
  get_parent : v.get parent = { u.get parent with
    children := (u.get parent).children ++ children }
  get_old : ∀ id, id < first → id ≠ parent → v.get id = u.get id
  directives : v.directives = u.directives

def opened (t u : ModuleTree) (parent first : Nat) : ModuleTree :=
  (u.addChild parent (t.get first).name).modify first
    ((t.get first).declarations.foldl ModuleDecl.declare ·)

section
variable {t u v w : ModuleTree} {parent first mid last : Nat}
  {children : List Nat}

theorem count_opened (hcount : u.count = first) :
    (opened t u parent first).count = first + 1 := by
  rw [opened, count_modify, count_addChild, hcount]

theorem get_opened_self (hcount : u.count = first) (hlt : parent < first)
    (hparent : t.parent? first = some parent) :
    (opened t u parent first).get first =
      { t.get first with children := [] } := by
  subst hcount
  have hfirst : u.count < (u.addChild parent (t.get u.count).name).count := by
    rw [count_addChild]
    exact Nat.lt_succ_self _
  have hsome : some parent = (t.get u.count).parent := hparent.symm
  rw [opened, get_modify_self hfirst, get_addChild_self hlt,
    ModuleDecl.foldl_declarations, hsome]

theorem get_opened_parent (hcount : u.count = first) (hlt : parent < first) :
    (opened t u parent first).get parent = { u.get parent with
      children := (u.get parent).children ++ [first] } := by
  subst hcount
  have hne : parent ≠ u.count := by omega
  rw [opened, get_modify_of_ne hne, get_addChild_parent hlt]

theorem get_opened_of_ne {id : Nat} (hcount : u.count = first)
    (hid : id < first) (hne : id ≠ parent) :
    (opened t u parent first).get id = u.get id := by
  subst hcount
  have hfirst : id ≠ u.count := by omega
  rw [opened, get_modify_of_ne hfirst, get_addChild_of_ne hfirst hne]

/-- A module with those nested in it, and then the modules behind it. -/
theorem Placed.cons (hcount : u.count = first) (hlt : parent < first)
    (hparent : t.parent? first = some parent)
    (hinner : Placed t (opened t u parent first) v first (first + 1)
      (t.children first) mid)
    (hmore : Placed t v w parent mid children last)
    (hfirst : first < mid) :
    Placed t u w parent first (first :: children) last where
  count := hmore.count
  get_new id hle hid := by
    by_cases hbehind : mid ≤ id
    · exact hmore.get_new id hbehind hid
    · rw [hmore.get_old id (by omega) (by omega)]
      by_cases hself : id = first
      · subst hself
        rw [hinner.get_parent, get_opened_self hcount hlt hparent]
        rfl
      · exact hinner.get_new id (by omega) (by omega)
  get_parent := by
    have hopened := get_opened_parent (t := t) hcount hlt
    rw [hmore.get_parent, hinner.get_old parent (by omega) (by omega), hopened]
    simp
  get_old id hid hne := by
    rw [hmore.get_old id (by omega) hne, hinner.get_old id (by omega) (by omega),
      get_opened_of_ne hcount hid hne]
  directives := by
    rw [hmore.directives, hinner.directives]
    rfl

end

/-! ## Writing nested modules -/

def childrenText (t : ModuleTree) (parent : Nat) (children : List Nat)
    (rest : List Char) : List Char :=
  children.foldr (fun child rest =>
    if parent < child ∧ child < t.count then
      put "module" (' ' :: put (t.get child).name (' ' :: '\x7b' :: '\n' ::
        t.writeModule child ('\x7d' :: ';' :: '\n' :: rest)))
    else
      rest) rest

theorem writeModule_eq (t : ModuleTree) (id : Nat) (rest : List Char) :
    t.writeModule id rest = writeDeclarations (t.get id).declarations
      (t.childrenText id (t.children id) rest) := by
  rw [writeModule]
  rfl

/-- What is written for modules has the items at its front by which they are
placed. -/
def WrittenChildren (t : ModuleTree) (parent : Nat) (children : List Nat)
    (is : List Item) : Prop :=
  ∀ js mid rest, Written (Items js) mid rest →
    Written (Items (is ++ js)) (t.childrenText parent children mid) rest

section
variable {t : ModuleTree} {parent first : Nat} {children : List Nat}
  {inner more : List Item}

theorem written_body (hds : ∀ d ∈ (t.get first).declarations, d.WellShaped)
    (hinner : WrittenChildren t first (t.children first) inner)
    (rest : List Char) :
    Written (Items (declarationItems (t.get first).declarations ++ inner))
      (t.writeModule first rest) rest := by
  have hnone : Written (Items []) rest rest := written_empty fun _ _ _ => .nil
  have hchildren := hinner [] rest rest hnone
  rw [List.append_nil] at hchildren
  rw [writeModule_eq]
  exact written_declarations hds hchildren

theorem WrittenChildren.cons (hlt : parent < first) (hcount : first < t.count)
    (hname : IsHeading (t.get first).name)
    (hds : ∀ d ∈ (t.get first).declarations, d.WellShaped)
    (hinner : WrittenChildren t first (t.children first) inner)
    (hmore : WrittenChildren t parent children more) :
    WrittenChildren t parent (first :: children)
      (.module (t.get first).name
        (declarationItems (t.get first).declarations ++ inner) :: more) := by
  intro js mid rest hjs
  have hkeyword : IsIdent "module" := by decide
  have htext : t.childrenText parent (first :: children) mid =
      put "module" (' ' :: put (t.get first).name (' ' :: '\x7b' :: '\n' ::
        t.writeModule first
          ('\x7d' :: ';' :: '\n' :: t.childrenText parent children mid))) :=
    if_pos ⟨hlt, hcount⟩
  have hbody := written_line (written_body hds hinner
    ('\x7d' :: ';' :: '\n' :: t.childrenText parent children mid))
  have hopen : Written (Mark .openBrace)
      ('\x7b' :: '\n' :: t.writeModule first
        ('\x7d' :: ';' :: '\n' :: t.childrenText parent children mid))
      ('\n' :: t.writeModule first
        ('\x7d' :: ';' :: '\n' :: t.childrenText parent children mid)) :=
    written_mark rfl
  have hclose : Written (Mark .closeBrace)
      ('\x7d' :: ';' :: '\n' :: t.childrenText parent children mid)
      (';' :: '\n' :: t.childrenText parent children mid) := written_mark rfl
  have hdelimited : Delimited
      ('\x7b' :: '\n' :: t.writeModule first
        ('\x7d' :: ';' :: '\n' :: t.childrenText parent children mid)) :=
    delimited_mark rfl rfl (by decide)
  rw [htext]
  have hwritten := (written_spaced hkeyword _).seq
    ((written_headingSpaced hname hdelimited.blank.behindName).seq
      (hopen.seq (hbody.seq (hclose.seq
        (written_endedLine (hmore js mid rest hjs))))))
  apply hwritten.imp
  intro a g hparts
  rcases hparts with ⟨b, hb, c, hc, d, hd, e, he, f, hf, hg⟩
  exact .module hb hc hd he hf hg

end

theorem Numbered.exists_items {t : ModuleTree} {parent first last : Nat}
    {children : List Nat} (h : t.Numbered parent first children last)
    (hlt : parent < first) (hlast : last ≤ t.count)
    (hnames : ∀ id, root < id → id < t.count → IsHeading (t.get id).name)
    (hds : ∀ id, id < t.count → ∀ d ∈ (t.get id).declarations, d.WellShaped) :
    ∃ is, WrittenChildren t parent children is ∧ ∀ u, u.count = first →
      Placed t u (placeItems parent u is) parent first children last := by
  induction h with
  | @nil parent first =>
      refine ⟨[], fun js mid rest hjs => hjs, fun u hcount => ?_⟩
      exact ⟨hcount, fun id hle hid => by omega, by simp [placeItems],
        fun _ _ _ => rfl, rfl⟩
  | @cons parent first mid last children hparent hinner hmore ihinner ihmore =>
      have hfirst := hinner.le
      have hmid := hmore.le
      obtain ⟨inner, hinnerWritten, hinnerPlaced⟩ :=
        ihinner (Nat.lt_succ_self first) (by omega)
      obtain ⟨more, hmoreWritten, hmorePlaced⟩ := ihmore (by omega) hlast
      have hcount : first < t.count := by omega
      have hroot : root < first := Nat.lt_of_le_of_lt (Nat.zero_le parent) hlt
      refine ⟨_, hinnerWritten.cons hlt hcount (hnames first hroot hcount)
        (hds first hcount) hmoreWritten, fun u hu => ?_⟩
      have hopened := hinnerPlaced (opened t u parent first) (count_opened hu)
      have hbehind := hmorePlaced _ hopened.count
      have hplace : placeItems parent u
          (.module (t.get first).name
            (declarationItems (t.get first).declarations ++ inner) :: more) =
          placeItems parent (placeItems first (opened t u parent first) inner)
            more := by
        rw [placeItems, placeItem, placeItems_declarations, hu]
        rfl
      rw [hplace]
      exact hopened.cons hu hlt hparent hbehind hfirst

/-- The root with its declarations and the directives of the tree. -/
def rooted (t : ModuleTree) : ModuleTree :=
  ModuleTree.modify { empty with directives := t.directives } root
    ((t.get root).declarations.foldl ModuleDecl.declare ·)

theorem get_rooted {t : ModuleTree} (hname : (t.get root).name = "")
    (hparent : t.parent? root = none) :
    (rooted t).get root = { t.get root with children := [] } := by
  have hlt : root < ModuleTree.count { empty with directives := t.directives } :=
    Nat.zero_lt_one
  have hfresh : ModuleTree.get { empty with directives := t.directives } root =
      .fresh (t.get root).name (t.get root).parent := by
    have hnone : (t.get root).parent = none := hparent
    rw [hname, hnone]
    rfl
  rw [rooted, get_modify_self hlt, hfresh, ModuleDecl.foldl_declarations]

/-- The source of a well-shaped tree has items that are placed as the tree. -/
theorem WellShaped.exists_items {t : ModuleTree} (h : t.WellShaped) :
    ∃ is, Written (Items is) t.render.toList [] ∧
      placeItems root .empty is = t := by
  have hpos : root < t.count := h.numbered.le
  obtain ⟨inner, hwritten, hplaced⟩ := h.numbered.exists_items
    (Nat.lt_succ_self root) (Nat.le_refl _) h.names h.declarations
  refine ⟨t.directives.map .directive ++
    (declarationItems (t.get root).declarations ++ inner), ?_, ?_⟩
  · have hbody := written_body (h.declarations root hpos) hwritten []
    have hall := written_directives h.directives hbody
    rwa [render, String.toList_ofList]
  · have hroot := hplaced (rooted t) (count_modify)
    rw [placeItems_directives, placeItems_declarations]
    refine ext_get hroot.count (fun id hid => ?_) hroot.directives
    by_cases hself : id = root
    · subst hself
      apply hroot.get_parent.trans
      rw [get_rooted h.rootName h.rootParent]
      rfl
    · have hnew : root < id := Nat.pos_of_ne_zero hself
      exact hroot.get_new id hnew (hroot.count ▸ hid)

end ModuleTree

/-- A well-shaped tree is the parse of its own source. -/
theorem parseSource_render (t : ModuleTree) (h : t.WellShaped) :
    parseSource t.render = .ok t := by
  rcases h.exists_items with ⟨is, hwritten, hplace⟩
  obtain ⟨stop, htokens⟩ := hwritten 0
  have hempty : Lexed stop [] [] := by
    rw [Lexed, pieces_nil]
    rfl
  obtain ⟨ts, hts, hitems⟩ := htokens [] hempty
  have hlex : lex t.render = .ok ts := hts
  have hrun := hitems.run (a := .start) (.inl rfl)
  rw [Assembly.run_nil] at hrun
  have hparse : parse ts = .ok t :=
    parse_eq_ok_iff.mpr ⟨_, hrun, rfl, hplace⟩
  rw [parseSource, hlex]
  simp only [hparse]

/-- A module with a structure, and nested in it a module with a type definition
whose type has an argument and a size. -/
def nestedModules : ModuleTree :=
  ⟨#[⟨"", none, [1], [], [], [], [], [], []⟩,
    ⟨"map", some 0, [2], [], [], [⟨"point", ["base"],
      [⟨"x", .named "long"⟩]⟩], [], [], []⟩,
    ⟨"path", some 1, [], [],
      [⟨"points", ⟨"array", some "8", [.named "point"]⟩⟩], [], [], [], []⟩],
    [.include "base.idl"]⟩

theorem parseSource_render_nestedModules :
    nestedModules.WellShaped ∧
      parseSource nestedModules.render = .ok nestedModules := by
  have hheading : ∀ w ∈ ["map", "point", "base", "path"], IsHeading w :=
    fun w hw => IsIdent.isHeading (by revert w; decide)
  have hlong : Declares (.named "long") "x" :=
    ⟨.intro (IsIdent.isTypeName (by decide) (by decide)) (List.forall_mem_nil _),
      fun n hn => (Option.not_mem_none n hn).elim, IsIdent.isPath (by decide),
      fun _ => by decide⟩
  have hpoint : IsPlain (.named "point") :=
    .intro (IsIdent.isTypeName (by decide) (by decide)) (List.forall_mem_nil _)
  have harray : Declares ⟨"array", some "8", [.named "point"]⟩ "points" :=
    ⟨.intro (IsIdent.isTypeName (by decide) (by decide))
        (List.forall_mem_singleton.mpr hpoint),
      by decide, IsIdent.isPath (by decide), fun _ => by decide⟩
  have hstruct : Declaration.WellShaped
      (.struct ⟨"point", ["base"], [⟨"x", .named "long"⟩]⟩) :=
    .struct (hheading _ (by decide))
      (List.forall_mem_singleton.mpr (hheading _ (by decide)))
      (List.forall_mem_singleton.mpr hlong)
  have hinclude : Directive.WellShaped (.include "base.idl") :=
    .include (by decide)
  have hinner : nestedModules.Numbered 1 2 [2] 3 := .cons rfl .nil .nil
  have hshaped : nestedModules.WellShaped := by
    refine ⟨rfl, rfl, .cons rfl hinner .nil, fun id hpos hid => ?_,
      fun id hid d hd => ?_, List.forall_mem_singleton.mpr hinclude⟩
    · have hplace : id = 1 ∨ id = 2 := by
        have hlt : id < 3 := hid
        have hroot : 0 < id := hpos
        omega
      rcases hplace with rfl | rfl
      · exact hheading _ (by decide)
      · exact hheading _ (by decide)
    · have hplace : id = 0 ∨ id = 1 ∨ id = 2 := by
        have hlt : id < 3 := hid
        omega
      rcases hplace with rfl | rfl | rfl
      · exact absurd hd (List.not_mem_nil)
      · exact List.mem_singleton.mp hd ▸ hstruct
      · exact List.mem_singleton.mp hd ▸ .typedef harray
  exact ⟨hshaped, parseSource_render nestedModules hshaped⟩

end Idl
