import Idl.Proofs.Listing.Lines

/-!
# Legible listings

Every line of a listing starts with a word and holds no line end, if no value
of a constant holds one.  Titles, headlines and entries are neat texts, and
what stands behind an equality sign or in quotes is only asked to be a single
line.
-/

namespace Idl

open ListingLine

section
variable {depth : Nat}

/-- All lines tell their depths and their ends. -/
def AllLegible (ls : List ListingLine) : Prop := ∀ l ∈ ls, l.Legible

theorem legible_append {s v : String} (hs : Neat s) (hv : '\n' ∉ v.toList) :
    Legible ⟨depth, s ++ v⟩ where
  front := by
    have hline : Legible ⟨depth, s⟩ := legible_of_neat hs
    rcases hline.front with ⟨c, cs, hchars, hc⟩
    refine ⟨c, cs ++ v.toList, ?_, hc⟩
    rw [String.toList_append, hchars, List.cons_append]
  line := by
    have hline : '\n' ∉ s.toList := hs.clean.notMem (by decide)
    rw [String.toList_append]
    exact fun hmem => (List.mem_append.mp hmem).elim hline hv

theorem AllLegible.append {ls ms : List ListingLine} (hls : AllLegible ls)
    (hms : AllLegible ms) : AllLegible (ls ++ ms) :=
  List.forall_mem_append.mpr ⟨hls, hms⟩

theorem allLegible_cons {l : ListingLine} {ls : List ListingLine}
    (hl : l.Legible) (hls : AllLegible ls) : AllLegible (l :: ls) :=
  List.forall_mem_cons.mpr ⟨hl, hls⟩

section
variable {α : Type} {xs : List α}

theorem allLegible_map {line : α → ListingLine}
    (h : ∀ x ∈ xs, (line x).Legible) : AllLegible (xs.map line) :=
  List.forall_mem_map.mpr h

theorem allLegible_flatMap {entry : α → List ListingLine}
    (h : ∀ x ∈ xs, AllLegible (entry x)) : AllLegible (xs.flatMap entry) := by
  intro l hl
  rcases List.mem_flatMap.mp hl with ⟨x, hx, hmem⟩
  exact h x hx l hmem

theorem allLegible_sort {entry : α → List ListingLine} {title : String}
    (htitle : IsIdent title) (h : ∀ x ∈ xs, AllLegible (entry x)) :
    AllLegible (sortListing depth title entry xs) := by
  cases xs with
  | nil => exact List.forall_mem_nil _
  | cons x xs =>
      have hcolon : Clean ":" := by decide
      exact allLegible_cons (legible_of_neat (htitle.neat.append hcolon))
        (allLegible_flatMap h)

end

/-! ## Declarations -/

theorem allLegible_interface {d : InterfaceDecl}
    (h : (Declaration.interface d).WellShaped) :
    AllLegible (d.listing depth) := by
  cases h with
  | interface hname hbases hmethods =>
      exact allLegible_cons (legible_of_neat (neat_derived hname hbases))
        (allLegible_map fun m hm => legible_of_neat (hmethods m hm).neat)

theorem allLegible_struct {d : StructDecl}
    (h : (Declaration.struct d).WellShaped) : AllLegible (d.listing depth) := by
  cases h with
  | struct hname hbases hmembers =>
      exact allLegible_cons (legible_of_neat (neat_derived hname hbases))
        (allLegible_map fun m hm =>
          legible_of_neat (neat_typedName (hmembers m hm)))

theorem legible_typedef {d : Member} (h : (Declaration.typedef d).WellShaped) :
    Legible ⟨depth, typedName d.name d.type⟩ := by
  cases h with
  | typedef hdeclares => exact legible_of_neat (neat_typedName hdeclares)

theorem allLegible_union {d : UnionDecl}
    (h : (Declaration.union d).WellShaped) : AllLegible (d.listing depth) := by
  cases h with
  | union hname htype hcases =>
      exact allLegible_cons (legible_of_neat (neat_switch hname htype))
        (allLegible_map fun c hc => legible_of_neat (hcases c hc).neat)

theorem newLine_notMem_repr (n : Nat) : '\n' ∉ n.repr.toList := by
  intro hmem
  rw [Nat.toList_repr] at hmem
  exact absurd (Nat.isDigit_of_mem_toDigits (by decide) (by decide) hmem)
    (by decide)

theorem newLine_notMem_assigned {v : String} (h : '\n' ∉ v.toList) :
    '\n' ∉ (" = " ++ v).toList := by
  rw [String.toList_append]
  exact fun hmem => (List.mem_append.mp hmem).elim (by decide) h

theorem allLegible_enum {d : EnumDecl}
    (h : (Declaration.enum d).WellShaped) : AllLegible (d.listing depth) := by
  cases h with
  | enum hname henumerators =>
      refine allLegible_cons (legible_of_neat hname.neat)
        (allLegible_map fun e he => ?_)
      have hident := henumerators e.1 (List.fst_mem_of_mem_zipIdx he)
      rw [String.append_assoc]
      exact legible_append hident.neat
        (newLine_notMem_assigned (newLine_notMem_repr e.2))

theorem legible_constant {c : Constant}
    (h : (Declaration.constant c).WellShaped) (hvalue : '\n' ∉ c.value.toList) :
    Legible ⟨depth, c.listing⟩ := by
  rcases c with ⟨name, type, value⟩
  cases h with
  | constant hdeclares =>
      have hneat : Neat (typedName name type) :=
        neat_typedName (m := ⟨name, type⟩) hdeclares
      rw [Constant.listing, String.append_assoc]
      exact legible_append hneat (newLine_notMem_assigned hvalue)

/-! ## Modules -/

namespace ModuleDecl

def WellDeclared (m : ModuleDecl) : Prop :=
  ∀ d ∈ m.declarations, d.WellShaped

/-- A module has a declaration if it stands among those of its sort. -/
def Has (m : ModuleDecl) : Declaration → Prop
  | .interface d => d ∈ m.interfaces
  | .typedef d => d ∈ m.typedefs
  | .struct d => d ∈ m.structs
  | .constant d => d ∈ m.constants
  | .enum d => d ∈ m.enums
  | .union d => d ∈ m.unions

theorem WellDeclared.of_has {m : ModuleDecl} (h : m.WellDeclared)
    {d : Declaration} (hd : m.Has d) : d.WellShaped := by
  have hmem : d ∈ m.declarations := by
    cases d <;> simpa [declarations, Has] using hd
  exact h d hmem

/-- The declarations of a module are listed in legible lines, if every value of
a constant is a single line. -/
theorem WellDeclared.allLegible {m : ModuleDecl} (h : m.WellDeclared)
    (hvalues : ∀ c ∈ m.constants, '\n' ∉ c.value.toList) :
    AllLegible (m.listing depth) := by
  have hinterfaces : AllLegible (sortListing depth "Interfaces"
      (InterfaceDecl.listing (depth + 1)) m.interfaces) :=
    allLegible_sort (by decide) fun _ hd => allLegible_interface (h.of_has hd)
  have hconstants : AllLegible (sortListing depth "Constants"
      (fun c => [⟨depth + 1, c.listing⟩]) m.constants) :=
    allLegible_sort (by decide) fun c hc => allLegible_cons
      (legible_constant (h.of_has hc) (hvalues c hc)) (List.forall_mem_nil _)
  have htypedefs : AllLegible (sortListing depth "TypeDefs"
      (fun d => [⟨depth + 1, typedName d.name d.type⟩]) m.typedefs) :=
    allLegible_sort (by decide) fun d hd => allLegible_cons
      (legible_typedef (h.of_has hd)) (List.forall_mem_nil _)
  have henums : AllLegible (sortListing depth "Enums"
      (EnumDecl.listing (depth + 1)) m.enums) :=
    allLegible_sort (by decide) fun _ hd => allLegible_enum (h.of_has hd)
  have hstructs : AllLegible (sortListing depth "Structs"
      (StructDecl.listing (depth + 1)) m.structs) :=
    allLegible_sort (by decide) fun _ hd => allLegible_struct (h.of_has hd)
  have hunions : AllLegible (sortListing depth "Unions"
      (UnionDecl.listing (depth + 1)) m.unions) :=
    allLegible_sort (by decide) fun _ hd => allLegible_union (h.of_has hd)
  have hall := (((((hinterfaces.append hconstants).append htypedefs).append
    henums).append hstructs).append hunions)
  exact hall

end ModuleDecl

theorem legible_directive (d : Directive) :
    Legible ⟨depth, "Directive: " ++ d.listing⟩ := by
  have hneat : Neat "Directive: " := ⟨⟨'D', _, rfl, rfl⟩, by decide⟩
  exact legible_append hneat d.newLine_notMem_listing

end

end Idl
