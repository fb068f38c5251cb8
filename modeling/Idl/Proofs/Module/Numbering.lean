import Idl.Module.Path
import Idl.Module.Walk
import Idl.Proofs.Module.Tree
import Idl.Proofs.Rendering.Shape

/-!
# Modules in the order of their numbers

When the modules below a parent are numbered in the order in which their
headings are read, a module, those nested in it and those behind it take
consecutive numbers.  A walk then meets the modules in the order of the
numbers, the parent of a module is the module in front of it or one around
that, and the depth of a module is the length of its path.
-/

namespace Idl.ModuleTree

/-- The module at the first place is the one at the second or lies around
it. -/
inductive Encloses (t : ModuleTree) (outer : Nat) : Nat → Prop where
  | self : Encloses t outer outer
  | inside {id parent : Nat} (hparent : t.parent? id = some parent)
      (houter : Encloses t outer parent) : Encloses t outer id

section
variable {t u : ModuleTree} {parent first mid last : Nat}
  {children more : List Nat}

theorem Encloses.trans {a b c : Nat} (hab : t.Encloses a b)
    (hbc : t.Encloses b c) : t.Encloses a c := by
  induction hbc with
  | self => exact hab
  | inside hparent _ ih => exact .inside hparent ih

/-! ## Numbering -/

theorem Numbered.le (h : t.Numbered parent first children last) :
    first ≤ last := by
  induction h with
  | nil => exact Nat.le_refl _
  | cons _ _ _ hinner hmore => omega

theorem Numbered.append (h : t.Numbered parent first children mid)
    (hmore : t.Numbered parent mid more last) :
    t.Numbered parent first (children ++ more) last := by
  induction h with
  | nil => exact hmore
  | cons hparent hinner _ _ ih => exact .cons hparent hinner (ih hmore)

/-- The numbering of some modules does not depend on the others. -/
theorem Numbered.congr (h : t.Numbered parent first children last)
    (hparents : ∀ id, first ≤ id → id < last → u.parent? id = t.parent? id)
    (hchildren : ∀ id, first ≤ id → id < last →
      u.children id = t.children id) :
    u.Numbered parent first children last := by
  induction h with
  | nil => exact .nil
  | @cons parent first mid last children hparent hinner hmore ihinner ihmore =>
      have hle := hinner.le
      have hle' := hmore.le
      have hfirst : first < last := by omega
      have hparent' : u.parent? first = some parent := by
        rw [hparents first (Nat.le_refl _) hfirst, hparent]
      have hinner' : u.Numbered first (first + 1) (u.children first) mid := by
        rw [hchildren first (Nat.le_refl _) hfirst]
        exact ihinner (fun id hid hid' => hparents id (by omega) (by omega))
          fun id hid hid' => hchildren id (by omega) (by omega)
      refine .cons hparent' hinner' ?_
      exact ihmore (fun id hid hid' => hparents id (by omega) (by omega))
        fun id hid hid' => hchildren id (by omega) (by omega)

/-- If the parent encloses the module in front of the first one, then the
parent of every module encloses the one in front of it, and the last one is
enclosed by the common parent. -/
theorem Numbered.encloses (h : t.Numbered parent first children last)
    (hlt : parent < first) (hfirst : ∀ id, id + 1 = first →
      t.Encloses parent id) :
    (∀ id, first ≤ id + 1 → id + 1 < last →
      ∃ p, t.parent? (id + 1) = some p ∧ p ≤ id ∧ t.Encloses p id) ∧
    ∀ id, id + 1 = last → t.Encloses parent id := by
  induction h with
  | nil => exact ⟨fun id hid hid' => by omega, hfirst⟩
  | @cons parent first mid last children hparent hinner hmore ihinner ihmore =>
      have hle := hinner.le
      have hself : ∀ id, id + 1 = first + 1 → t.Encloses first id := by
        rintro id hid
        obtain rfl : id = first := by omega
        exact .self
      obtain ⟨hparents, hlast⟩ := ihinner (Nat.lt_succ_self _) hself
      have hmid : ∀ id, id + 1 = mid → t.Encloses parent id := by
        intro id hid
        exact (Encloses.inside hparent .self).trans (hlast id hid)
      obtain ⟨hparents', hlast'⟩ := ihmore (by omega) hmid
      refine ⟨fun id hid hid' => ?_, hlast'⟩
      by_cases hhere : id + 1 = first
      · subst hhere
        exact ⟨parent, hparent, by omega, hfirst id rfl⟩
      · by_cases hinside : id + 1 < mid
        · exact hparents id (by omega) hinside
        · exact hparents' id (by omega) hid'

/-- In a tree that is numbered throughout, the parent of a module is the module
in front of it or lies around that. -/
theorem Numbered.parent_encloses
    (h : t.Numbered root (root + 1) (t.children root) t.count) {id : Nat}
    (hid : id + 1 < t.count) :
    ∃ p, t.parent? (id + 1) = some p ∧ p ≤ id ∧ t.Encloses p id := by
  have hfirst : ∀ id, id + 1 = root + 1 → t.Encloses root id := by
    rintro id hid
    obtain rfl : id = root := by omega
    exact .self
  have hparents := (h.encloses (Nat.lt_succ_self _) hfirst).1
  exact hparents id (by simp [root]) hid

theorem Numbered.parent_lt
    (h : t.Numbered root (root + 1) (t.children root) t.count)
    (hroot : t.parent? root = none) {id : Nat} (hid : id < t.count)
    (hparent : t.parent? id = some parent) : parent < id := by
  cases id with
  | zero => exact absurd (hparent.symm.trans hroot) nofun
  | succ id =>
      obtain ⟨p, hp, hle, -⟩ := h.parent_encloses hid
      rw [hp] at hparent
      cases hparent
      omega

/-! ## Paths -/

theorem segmentsTo_eq (t : ModuleTree) (id : Nat) (below : List String) :
    t.segmentsTo id below = t.segments id ++ below := by
  unfold segments
  induction id using Nat.strongRecOn generalizing below with
  | ind id ih =>
      rw [segmentsTo, segmentsTo]
      cases t.parent? id with
      | none => rfl
      | some p =>
          by_cases hp : p < id
          · simp only [if_pos hp]
            rw [ih p hp, ih p hp [_], List.append_assoc]
            rfl
          · simp only [if_neg hp]
            rfl

theorem segments_of_parent {id : Nat} (hparent : t.parent? id = some parent)
    (hlt : parent < id) :
    t.segments id = t.segments parent ++ [(t.get id).name] := by
  rw [segments, segmentsTo, hparent]
  simp only [if_pos hlt]
  exact segmentsTo_eq t parent _

theorem segments_of_none {id : Nat} (h : t.parent? id = none) :
    t.segments id = [] := by
  rw [segments, segmentsTo, h]

/-! ## Walking -/

def visit (t : ModuleTree) (id : Nat) : Nat × Nat :=
  (id, (t.segments id).length)

theorem range'_succ_split {first mid last : Nat} (h : first < mid)
    (h' : mid ≤ last) : List.range' first (last - first) =
      first :: (List.range' (first + 1) (mid - (first + 1)) ++
        List.range' mid (last - mid)) := by
  have hlength : last - first =
      mid - (first + 1) + (last - mid) + 1 := by omega
  have hmid : first + 1 + 1 * (mid - (first + 1)) = mid := by omega
  rw [hlength, List.range'_succ, ← List.range'_append, hmid]

/-- A walk that has the modules below a parent on its stack visits them and
those nested in them in the order of their numbers. -/
theorem Numbered.walkFrom (h : t.Numbered parent first children last)
    (hlt : parent < first) {depth : Nat}
    (hdepth : (t.segments parent).length + 1 = depth) (steps : Nat)
    (rest : List (Nat × Nat)) :
    t.walkFrom (last - first + steps) (children.map (·, depth) ++ rest) =
      (List.range' first (last - first)).map t.visit ++
        t.walkFrom steps rest := by
  induction h generalizing depth steps rest with
  | nil => simp
  | @cons parent first mid last children hparent hinner hmore ihinner ihmore =>
      have hle := hinner.le
      have hle' := hmore.le
      have hvisit : t.visit first = (first, depth) := by
        rw [visit, segments_of_parent hparent hlt, List.length_append, ← hdepth]
        rfl
      have hbelow : (t.segments first).length + 1 = depth + 1 :=
        congrArg (·.2 + 1) hvisit
      have hsteps : last - first + steps =
          mid - (first + 1) + (last - mid + steps) + 1 := by omega
      calc
        t.walkFrom (last - first + steps)
              ((first :: children).map (·, depth) ++ rest) =
            (first, depth) ::
              t.walkFrom (mid - (first + 1) + (last - mid + steps))
                ((t.children first).map (·, depth + 1) ++
                  (children.map (·, depth) ++ rest)) := by
              rw [hsteps]
              rfl
        _ = t.visit first ::
              ((List.range' (first + 1) (mid - (first + 1))).map t.visit ++
                ((List.range' mid (last - mid)).map t.visit ++
                  t.walkFrom steps rest)) := by
              rw [ihinner (Nat.lt_succ_self _) hbelow,
                ihmore (by omega) hdepth, hvisit]
        _ = (List.range' first (last - first)).map t.visit ++
              t.walkFrom steps rest := by
              rw [range'_succ_split hle hle', List.map_cons, List.map_append,
                List.cons_append, List.append_assoc]

/-- A walk of a tree that is numbered throughout visits the modules in the
order of their numbers, each at the depth that its path has. -/
theorem Numbered.walk (h : t.Numbered root (root + 1) (t.children root) t.count)
    (hroot : t.parent? root = none) :
    t.walk = (List.range t.count).map t.visit := by
  have hle : 1 ≤ t.count := h.le
  have hdepth : (t.segments root).length = 0 := by
    rw [segments_of_none hroot]
    rfl
  have hsteps : t.count = t.count - 1 + 0 + 1 := by omega
  have hrange : List.range t.count = root :: List.range' 1 (t.count - 1) := by
    rw [List.range_eq_range', hsteps, List.range'_succ]
    rfl
  have hvisit : t.visit root = (root, 0) := congrArg (Prod.mk root) hdepth
  have hrest := h.walkFrom (Nat.lt_succ_self _) (congrArg (· + 1) hdepth) 0 []
  calc
    t.walk = (root, 0) :: t.walkFrom (t.count - 1 + 0)
        ((t.children root).map (·, 0 + 1) ++ []) := by
          rw [ModuleTree.walk, hsteps]
          rfl
    _ = (root, 0) :: ((List.range' 1 (t.count - 1)).map t.visit ++ []) :=
          congrArg _ hrest
    _ = (List.range t.count).map t.visit := by
          rw [hrange, List.append_nil, List.map_cons, hvisit]

theorem Numbered.walk_getElem?
    (h : t.Numbered root (root + 1) (t.children root) t.count)
    (hroot : t.parent? root = none) {id : Nat} (hid : id < t.count) :
    t.walk[id]? = some (t.visit id) := by
  rw [h.walk hroot, List.getElem?_map, List.getElem?_range hid]
  rfl

end

end Idl.ModuleTree
