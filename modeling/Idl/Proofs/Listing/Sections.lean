import Idl.Proofs.Listing.Legible

/-!
# Sections of a listing, read back

What belongs to a line stands behind it and deeper.  So lines of one depth
part a listing, and each part can be read by itself; a part ends at the next
line that is not deep enough.  The sorts of declarations of a module are all of
one depth, but they come in a fixed order and each under its own title, and
behind them stand nested modules, whose headlines are no titles.
-/

namespace Idl

/-- The titles of the sorts, in the order of a listing. -/
def sortTitles : List String :=
  ["Interfaces:", "Constants:", "TypeDefs:", "Enums:", "Structs:", "Unions:"]

/-- The next line is above the depth, and no title that comes before the given
place. -/
def Heads (depth place : Nat) (rest : List ListingLine) : Prop :=
  ∀ l ∈ rest.head?, l.depth < depth ∧ place ≤ sortTitles.idxOf l.text

/-- In front of lines of some kind the lines tell what they list. -/
def Tells {α : Type} (shape : α → Prop) (lines : α → List ListingLine)
    (front : List ListingLine → Prop) : Prop :=
  ∀ x y r s, shape x → shape y → front r → front s →
    lines x ++ r = lines y ++ s → x = y ∧ r = s

section
variable {depth place : Nat} {rest : List ListingLine}

theorem heads_nil : Heads depth place [] := nofun

theorem heads_cons {l : ListingLine} (hdepth : l.depth < depth)
    (hplace : place ≤ sortTitles.idxOf l.text) :
    Heads depth place (l :: rest) := by
  intro m hm
  cases Option.mem_some_iff.mp hm
  exact ⟨hdepth, hplace⟩

theorem Heads.mono {depth' place' : Nat} (h : Heads depth place rest)
    (hdepth : depth ≤ depth') (hplace : place' ≤ place) :
    Heads depth' place' rest := by
  intro l hl
  have hline := h l hl
  exact ⟨Nat.lt_of_lt_of_le hline.1 hdepth, Nat.le_trans hplace hline.2⟩

/-- A line that is deep enough does not come next. -/
theorem Heads.ne_cons {l : ListingLine} {ls : List ListingLine}
    (h : Heads depth place rest) (hdepth : depth ≤ l.depth) :
    rest ≠ l :: ls := by
  rintro rfl
  have hline := h l rfl
  omega

/-! ## Entries -/

section
variable {α : Type} {shape : α → Prop} {entry : α → List ListingLine}

/-- Entries that each start with a line of the given depth. -/
def Headed (depth : Nat) (entry : α → List ListingLine) : Prop :=
  ∀ x, ∃ text ls, entry x = ⟨depth, text⟩ :: ls

theorem heads_flatMap (hheaded : Headed depth entry) (xs : List α)
    (hrest : Heads depth 0 rest) :
    Heads (depth + 1) 0 (xs.flatMap entry ++ rest) := by
  cases xs with
  | nil => exact hrest.mono (by omega) (Nat.le_refl 0)
  | cons x xs =>
      rcases hheaded x with ⟨text, ls, hentry⟩
      rw [List.flatMap_cons, hentry]
      exact heads_cons (Nat.lt_succ_self depth) (Nat.zero_le _)

theorem tells_flatMap (hheaded : Headed depth entry)
    (hentry : Tells shape entry (Heads (depth + 1) 0)) :
    Tells (fun xs => ∀ x ∈ xs, shape x) (List.flatMap entry)
      (Heads depth 0) := by
  have hfirst : ∀ x xs r s, Heads depth 0 s →
      List.flatMap entry (x :: xs) ++ r ≠ s := by
    intro x xs r s hs h
    rcases hheaded x with ⟨text, ls, hline⟩
    rw [List.flatMap_cons, hline] at h
    exact hs.ne_cons (Nat.le_refl depth) h.symm
  intro xs
  induction xs with
  | nil =>
      intro ys r s _ _ hr _ h
      cases ys with
      | nil => exact ⟨rfl, h⟩
      | cons y ys => exact absurd h.symm (hfirst y ys s r hr)
  | cons x xs ih =>
      intro ys r s hxs hys hr hs h
      cases ys with
      | nil => exact absurd h (hfirst x xs r s hs)
      | cons y ys =>
          have hx := List.forall_mem_cons.mp hxs
          have hy := List.forall_mem_cons.mp hys
          simp only [List.flatMap_cons, List.append_assoc] at h
          have hhere := hentry x y _ _ hx.1 hy.1 (heads_flatMap hheaded xs hr)
            (heads_flatMap hheaded ys hs) h
          have hmore := ih ys r s hx.2 hy.2 hr hs hhere.2
          exact ⟨congrArg₂ List.cons hhere.1 hmore.1, hmore.2⟩

/-! ## Entries of a single line -/

theorem headed_line (text : α → String) :
    Headed depth fun x => [(⟨depth, text x⟩ : ListingLine)] :=
  fun x => ⟨text x, [], rfl⟩

section
variable {text : α → String}
  (htext : ∀ x y, shape x → shape y → text x = text y → x = y)
include htext

theorem tells_line :
    Tells shape (fun x => [⟨depth, text x⟩]) (Heads (depth + 1) 0) := by
  intro x y r s hx hy _ _ h
  have hparts := List.cons.inj h
  exact ⟨htext x y hx hy (ListingLine.mk.inj hparts.1).2, hparts.2⟩

theorem tells_map :
    Tells (fun xs => ∀ x ∈ xs, shape x)
      (List.map fun x => ⟨depth, text x⟩) (Heads depth 0) := by
  have hentry : Tells shape (fun x => [(⟨depth, text x⟩ : ListingLine)])
      (Heads (depth + 1) 0) := tells_line htext
  have htells := tells_flatMap (headed_line text) hentry
  intro xs ys r s hxs hys hr hs h
  simp only [List.map_eq_flatMap] at h
  exact htells xs ys r s hxs hys hr hs h

end

end

/-! ## Declarations -/

theorem tells_interface : Tells
    (fun d => (Declaration.interface d).WellShaped)
    (InterfaceDecl.listing depth) (Heads (depth + 1) 0) := by
  intro d e r s hd he hr hs h
  rcases d with ⟨name, bases, methods⟩
  rcases e with ⟨name', bases', methods'⟩
  cases hd with
  | interface hname hbases hmethods =>
      cases he with
      | interface hname' hbases' hmethods' =>
          have hparts := List.cons.inj h
          have hhead := append_baseList_inj hname hname' hbases hbases'
            (ListingLine.mk.inj hparts.1).2
          have hmembers := tells_map
            (fun m n hm hn hsame => Method.listing_inj hm hn hsame)
            methods methods' r s hmethods hmethods' hr hs hparts.2
          have hdecl : (⟨name, bases, methods⟩ : InterfaceDecl) =
              ⟨name', bases', methods'⟩ :=
            InterfaceDecl.mk.injEq .. ▸ ⟨hhead.1, hhead.2, hmembers.1⟩
          exact ⟨hdecl, hmembers.2⟩

theorem tells_struct : Tells
    (fun d => (Declaration.struct d).WellShaped)
    (StructDecl.listing depth) (Heads (depth + 1) 0) := by
  intro d e r s hd he hr hs h
  rcases d with ⟨name, bases, members⟩
  rcases e with ⟨name', bases', members'⟩
  cases hd with
  | struct hname hbases hmembers =>
      cases he with
      | struct hname' hbases' hmembers' =>
          have hparts := List.cons.inj h
          have hhead := append_baseList_inj hname hname' hbases hbases'
            (ListingLine.mk.inj hparts.1).2
          have hfields := tells_map
            (fun m n hm hn hsame => typedName_inj hm hn hsame)
            members members' r s hmembers hmembers' hr hs hparts.2
          have hdecl : (⟨name, bases, members⟩ : StructDecl) =
              ⟨name', bases', members'⟩ :=
            StructDecl.mk.injEq .. ▸ ⟨hhead.1, hhead.2, hfields.1⟩
          exact ⟨hdecl, hfields.2⟩

theorem tells_union : Tells
    (fun d => (Declaration.union d).WellShaped)
    (UnionDecl.listing depth) (Heads (depth + 1) 0) := by
  intro d e r s hd he hr hs h
  rcases d with ⟨name, type, cases⟩
  rcases e with ⟨name', type', cases'⟩
  cases hd with
  | union hname htype hcases =>
      cases he with
      | union hname' htype' hcases' =>
          have hparts := List.cons.inj h
          have hhead := switch_inj hname hname' htype htype'
            (ListingLine.mk.inj hparts.1).2
          have hall := tells_map
            (fun c d hc hd hsame => UnionCase.listing_inj hc hd hsame)
            cases cases' r s hcases hcases' hr hs hparts.2
          have hdecl : (⟨name, type, cases⟩ : UnionDecl) =
              ⟨name', type', cases'⟩ :=
            UnionDecl.mk.injEq .. ▸ ⟨hhead.1, hhead.2, hall.1⟩
          exact ⟨hdecl, hall.2⟩

theorem repr_inj {m n : Nat} (h : m.repr = n.repr) : m = n := by
  have hdigits := congrArg String.toList h
  rw [Nat.toList_repr, Nat.toList_repr] at hdigits
  have hvalue := congrArg (Nat.ofDigitChars 10 · 0) hdigits
  simpa [Nat.ofDigitChars_toDigits] using hvalue

/-- The lines of enumerators also count them. -/
theorem tells_enum : Tells
    (fun d => (Declaration.enum d).WellShaped)
    (EnumDecl.listing depth) (Heads (depth + 1) 0) := by
  intro d e r s hd he hr hs h
  rcases d with ⟨name, enumerators⟩
  rcases e with ⟨name', enumerators'⟩
  cases hd with
  | enum hname henumerators =>
      cases he with
      | enum hname' henumerators' =>
          have hparts := List.cons.inj h
          have htext : ∀ p q : String × Nat, IsIdent p.1 → IsIdent q.1 →
              p.1 ++ " = " ++ p.2.repr = q.1 ++ " = " ++ q.2.repr → p = q := by
            intro p q hp hq hsame
            have hboth := append_equals_inj hp.neat.clean hq.neat.clean hsame
            exact Prod.ext hboth.1 (repr_inj hboth.2)
          have hshape : ∀ names : List String, (∀ w ∈ names, IsIdent w) →
              ∀ p ∈ names.zipIdx, IsIdent p.1 := fun names hnames p hp =>
            hnames p.1 (List.fst_mem_of_mem_zipIdx hp)
          have hall := tells_map htext enumerators.zipIdx enumerators'.zipIdx
            r s (hshape _ henumerators) (hshape _ henumerators') hr hs hparts.2
          have hnames := congrArg (List.map Prod.fst) hall.1
          rw [List.zipIdx_map_fst, List.zipIdx_map_fst] at hnames
          exact ⟨congrArg₂ EnumDecl.mk (ListingLine.mk.inj hparts.1).2 hnames,
            hall.2⟩

theorem tells_constant : Tells
    (fun c => (Declaration.constant c).WellShaped)
    (fun c => [⟨depth, c.listing⟩]) (Heads (depth + 1) 0) :=
  tells_line fun c d hc hd hsame => by
    cases hc with
    | constant hdeclares =>
        cases hd with
        | constant hdeclares' =>
            exact Constant.listing_inj hdeclares hdeclares' hsame

theorem tells_typedef : Tells
    (fun m => (Declaration.typedef m).WellShaped)
    (fun m => [⟨depth, typedName m.name m.type⟩]) (Heads (depth + 1) 0) :=
  tells_line fun m n hm hn hsame => by
    cases hm with
    | typedef hdeclares =>
        cases hn with
        | typedef hdeclares' => exact typedName_inj hdeclares hdeclares' hsame

/-! ## Sorts -/

/-- Lines of a module that start with none of the titles in front of the given
place, and that are the same for two modules only if the modules are the same
in some respect. -/
structure Ranked (depth place : Nat) (lines : ModuleDecl → List ListingLine)
    (same : ModuleDecl → ModuleDecl → Prop) : Prop where
  tells : ∀ m n r s, m.WellDeclared → n.WellDeclared →
    Heads (depth + 1) sortTitles.length r →
    Heads (depth + 1) sortTitles.length s →
    lines m ++ r = lines n ++ s → same m n ∧ r = s
  heads : ∀ m rest, Heads (depth + 1) sortTitles.length rest →
    Heads (depth + 1) place (lines m ++ rest)

theorem ranked_nothing :
    Ranked depth sortTitles.length (fun _ => []) fun _ _ => True where
  tells _ _ _ _ _ _ _ _ h := ⟨trivial, h⟩
  heads _ _ hrest := hrest

/-- A sort in front of the sorts that come behind it. -/
theorem Ranked.sort {α : Type} {shape : α → Prop}
    {entry : α → List ListingLine} {lines : ModuleDecl → List ListingLine}
    {same : ModuleDecl → ModuleDecl → Prop}
    (h : Ranked depth (place + 1) lines same) (title : String)
    (field : ModuleDecl → List α)
    (hplace : sortTitles.idxOf (title ++ ":") = place)
    (hentry : Tells shape entry (Heads (depth + 2) 0))
    (hheaded : Headed (depth + 1) entry)
    (hfield : ∀ m : ModuleDecl, m.WellDeclared → ∀ x ∈ field m, shape x) :
    Ranked depth place
      (fun m => sortListing depth title entry (field m) ++ lines m)
      (fun m n => field m = field n ∧ same m n) where
  tells := by
    intro m n r s hm hn hr hs heq
    have hxs := hfield m hm
    have hys := hfield n hn
    have hrest := h.heads m r hr
    have hrest' := h.heads n s hs
    have hnot : ∀ {ls rest}, Heads (depth + 1) (place + 1) rest →
        (⟨depth, title ++ ":"⟩ : ListingLine) :: ls ≠ rest := by
      rintro ls rest hheads rfl
      have hline : place + 1 ≤ sortTitles.idxOf (title ++ ":") :=
        (hheads _ rfl).2
      omega
    have hmore : lines m ++ r = lines n ++ s → same m n ∧ r = s :=
      h.tells m n r s hm hn hr hs
    rw [List.append_assoc, List.append_assoc] at heq
    cases hfirst : field m with
    | nil =>
        cases hfirst' : field n with
        | nil =>
            rw [hfirst, hfirst'] at heq
            have hothers := hmore heq
            exact ⟨⟨rfl, hothers.1⟩, hothers.2⟩
        | cons y ys =>
            rw [hfirst, hfirst'] at heq
            exact absurd heq.symm (hnot hrest)
    | cons x xs =>
        cases hfirst' : field n with
        | nil =>
            rw [hfirst, hfirst'] at heq
            exact absurd heq (hnot hrest')
        | cons y ys =>
            rw [hfirst, hfirst'] at heq
            rw [hfirst] at hxs
            rw [hfirst'] at hys
            have hall := tells_flatMap hheaded hentry _ _ _ _ hxs hys
              (hrest.mono (Nat.le_refl _) (Nat.zero_le _))
              (hrest'.mono (Nat.le_refl _) (Nat.zero_le _))
              (List.cons.inj heq).2
            have hothers := hmore hall.2
            exact ⟨⟨hall.1, hothers.1⟩, hothers.2⟩
  heads := by
    intro m rest hrest
    have hmore := h.heads m rest hrest
    simp only [List.append_assoc]
    cases field m with
    | nil => exact hmore.mono (Nat.le_refl _) (Nat.le_succ place)
    | cons x xs =>
        exact heads_cons (Nat.lt_succ_self depth) (Nat.le_of_eq hplace.symm)

/-! ## Modules -/

/-- The same declarations, whatever the names of the modules are and which
modules are nested in them. -/
structure ModuleDecl.SameSorts (m n : ModuleDecl) : Prop where
  interfaces : m.interfaces = n.interfaces
  constants : m.constants = n.constants
  typedefs : m.typedefs = n.typedefs
  enums : m.enums = n.enums
  structs : m.structs = n.structs
  unions : m.unions = n.unions

/-- The declarations of a module are told by their lines, in front of lines
that are no titles and not as deep. -/
theorem ModuleDecl.listing_tells {m n : ModuleDecl} {r s : List ListingLine}
    (hm : m.WellDeclared) (hn : n.WellDeclared)
    (hr : Heads (depth + 1) sortTitles.length r)
    (hs : Heads (depth + 1) sortTitles.length s)
    (h : m.listing depth ++ r = n.listing depth ++ s) :
    m.SameSorts n ∧ r = s := by
  have hnothing : Ranked depth sortTitles.length (fun _ => [])
      fun _ _ => True := ranked_nothing
  have hunions := hnothing.sort "Unions"
    ModuleDecl.unions (by decide) tells_union (fun d => ⟨_, _, rfl⟩)
    fun _ hm _ hd => hm.of_has hd
  have hstructs := hunions.sort "Structs"
    ModuleDecl.structs (by decide) tells_struct (fun d => ⟨_, _, rfl⟩)
    fun _ hm _ hd => hm.of_has hd
  have henums := hstructs.sort "Enums"
    ModuleDecl.enums (by decide) tells_enum (fun d => ⟨_, _, rfl⟩)
    fun _ hm _ hd => hm.of_has hd
  have htypedefs := henums.sort "TypeDefs"
    ModuleDecl.typedefs (by decide) tells_typedef (fun d => ⟨_, _, rfl⟩)
    fun _ hm _ hd => hm.of_has hd
  have hconstants := htypedefs.sort "Constants"
    ModuleDecl.constants (by decide) tells_constant (fun d => ⟨_, _, rfl⟩)
    fun _ hm _ hd => hm.of_has hd
  have hsorts := hconstants.sort "Interfaces"
    ModuleDecl.interfaces (by decide) tells_interface (fun d => ⟨_, _, rfl⟩)
    fun _ hm _ hd => hm.of_has hd
  have hall := hsorts.tells m n r s hm hn hr hs
    (by simpa [ModuleDecl.listing] using h)
  rcases hall with ⟨⟨hi, hc, ht, he, hs, hu, -⟩, hrest⟩
  exact ⟨⟨hi, hc, ht, he, hs, hu⟩, hrest⟩

end

end Idl
