import Idl.Proofs.Module.Tree

/-!
# Merging module trees

The second tree is put behind the first.  What its root holds goes to the root
of the first tree, its other modules are added behind those of the first tree
and get new numbers, and its directives follow those of the first tree.

A change of the second tree is the same change of the merged tree at the new
number, so trees that grow alike stay alike when a tree is put in front.
-/

namespace Idl

/-- The number of a module behind other modules; there is one root for all. -/
def shiftId (offset id : Nat) : Nat :=
  if id = ModuleTree.root then id else id + offset

namespace ModuleDecl

/-- The module with the new numbers of the modules around it and in it. -/
def shift (m : ModuleDecl) (offset : Nat) : ModuleDecl :=
  { m with
    parent := m.parent.map (shiftId offset)
    children := m.children.map (shiftId offset) }

/-- The first module with what the second one holds added to each of its
collections. -/
def append (m n : ModuleDecl) : ModuleDecl :=
  { m with
    children := m.children ++ n.children
    interfaces := m.interfaces ++ n.interfaces
    typedefs := m.typedefs ++ n.typedefs
    structs := m.structs ++ n.structs
    constants := m.constants ++ n.constants
    enums := m.enums ++ n.enums
    unions := m.unions ++ n.unions }

theorem shift_declare (m : ModuleDecl) (d : Declaration) (offset : Nat) :
    (m.declare d).shift offset = (m.shift offset).declare d := by
  cases d <;> rfl

theorem append_declare (m n : ModuleDecl) (d : Declaration) :
    (m.append n).declare d = m.append (n.declare d) := by
  cases d <;> simp [append, declare]

end ModuleDecl

namespace ModuleTree

/-- The first tree with what the root of the second one holds. -/
def mergeRoot (t u : ModuleTree) : ModuleTree :=
  t.modify root (·.append ((u.get root).shift (t.count - 1)))

def merge (t u : ModuleTree) : ModuleTree where
  modules := (t.mergeRoot u).modules ++
    (u.modules.extract 1 u.count).map (·.shift (t.count - 1))
  directives := t.directives ++ u.directives

section
variable {t u v : ModuleTree} {id : Nat}

/-! ## The modules of a merged tree -/

theorem count_mergeRoot : (t.mergeRoot u).count = t.count :=
  count_modify

theorem count_merge : (t.merge u).count = t.count + (u.count - 1) := by
  have hcount : (t.mergeRoot u).modules.size = t.count := count_mergeRoot
  simp [merge, count, hcount]

theorem get_merge_of_lt (hid : id < t.count) :
    (t.merge u).get id = (t.mergeRoot u).get id := by
  have hlt : id < (t.mergeRoot u).modules.size := by
    rwa [← count_mergeRoot (u := u)] at hid
  simp [merge, get, Array.getElem?_append, hlt]

theorem get_merge_root (ht : 0 < t.count) : (t.merge u).get root =
    (t.get root).append ((u.get root).shift (t.count - 1)) := by
  have hroot : root < t.count := ht
  rw [get_merge_of_lt hroot, mergeRoot, get_modify_self hroot]

theorem get_merge_left (hne : id ≠ root) (hid : id < t.count) :
    (t.merge u).get id = t.get id := by
  rw [get_merge_of_lt hid, mergeRoot, get_modify_of_ne hne]

theorem get_merge_right (ht : 0 < t.count) (hne : id ≠ root)
    (hid : id < u.count) : (t.merge u).get (id + (t.count - 1)) =
      (u.get id).shift (t.count - 1) := by
  have hcount : (t.mergeRoot u).modules.size = t.count := count_mergeRoot
  have hpos : 0 < id := Nat.pos_of_ne_zero hne
  have hplace : id + (t.count - 1) - t.count = id - 1 := by omega
  have hnot : ¬ id + (t.count - 1) < t.count := by omega
  have hindex : 1 + (id - 1) = id := by omega
  have hsize : id < u.modules.size := hid
  have hlt : id - 1 < min u.count u.modules.size - 1 := by
    rw [count, Nat.min_self]
    omega
  simp [merge, get, Array.getElem?_append, hcount, hnot, hplace, hindex, hlt,
    hsize]

/-- A tree is a merged one if it has the modules of the first tree, those of
the second behind, and both roots in one. -/
theorem eq_merge (ht : 0 < t.count) (hu : 0 < u.count)
    (hcount : v.count = t.count + (u.count - 1))
    (hroot : v.get root =
      (t.get root).append ((u.get root).shift (t.count - 1)))
    (hleft : ∀ id, id ≠ root → id < t.count → v.get id = t.get id)
    (hright : ∀ id, id ≠ root → id < u.count →
      v.get (id + (t.count - 1)) = (u.get id).shift (t.count - 1))
    (hdirectives : v.directives = t.directives ++ u.directives) :
    v = t.merge u := by
  refine ext_get (hcount.trans count_merge.symm) (fun id hid => ?_) hdirectives
  rw [hcount] at hid
  by_cases hzero : id = root
  · rw [hzero, hroot, get_merge_root ht]
  · by_cases hlt : id < t.count
    · rw [hleft id hzero hlt, get_merge_left hzero hlt]
    · obtain ⟨other, rfl⟩ : ∃ other, id = other + (t.count - 1) :=
        ⟨id - (t.count - 1), by omega⟩
      have hother : other ≠ root := by
        rintro rfl
        exact hlt (by simp only [root]; omega)
      rw [hright other hother (by omega), get_merge_right ht hother (by omega)]

/-- Nothing is added by a tree that has nothing but a root. -/
theorem merge_empty (ht : 0 < t.count) : t.merge .empty = t := by
  refine (eq_merge ht (by decide) rfl ?_ (fun _ _ _ => rfl) ?_ ?_).symm
  · have hempty : (empty.get root).shift (t.count - 1) = .fresh "" none := rfl
    rw [hempty]
    simp [ModuleDecl.append, ModuleDecl.fresh]
  · intro id hne hid
    have hone : empty.count = 1 := rfl
    exact absurd (Nat.lt_one_iff.mp (hone ▸ hid)) hne
  · exact (List.append_nil _).symm

/-! ## Growing in step -/

theorem shiftId_root (offset : Nat) : shiftId offset root = root :=
  if_pos rfl

theorem shiftId_of_ne (hne : id ≠ root) (offset : Nat) :
    shiftId offset id = id + offset :=
  if_neg hne

theorem merge_addDirective (d : Directive) :
    t.merge (u.addDirective d) = (t.merge u).addDirective d := by
  simp only [merge, mergeRoot, addDirective, List.append_assoc]
  rfl

theorem merge_modify {f g : ModuleDecl → ModuleDecl} (ht : 0 < t.count)
    (hid : id < u.count)
    (hshift : ∀ m, (f m).shift (t.count - 1) = g (m.shift (t.count - 1)))
    (happend : ∀ m n : ModuleDecl, g (m.append n) = m.append (g n)) :
    (t.merge u).modify (shiftId (t.count - 1) id) g =
      t.merge (u.modify id f) := by
  have hu : 0 < u.count := Nat.lt_of_le_of_lt (Nat.zero_le _) hid
  have hcount : (t.merge u).count = t.count + (u.count - 1) := count_merge
  refine eq_merge ht (by simpa using hu) (by simpa using hcount) ?_ ?_ ?_ rfl
  · by_cases hzero : id = root
    · subst hzero
      have hmerged : root < (t.merge u).count := by
        rw [root, hcount]
        omega
      rw [shiftId_root, get_modify_self hmerged, get_modify_self hid,
        get_merge_root ht, hshift, happend]
    · have hpos : 0 < id := Nat.pos_of_ne_zero hzero
      have hne : root ≠ id + (t.count - 1) := by
        rw [root]
        omega
      rw [shiftId_of_ne hzero, get_modify_of_ne hne,
        get_modify_of_ne (Ne.symm hzero), get_merge_root ht]
  · intro other hother hlt
    by_cases hzero : id = root
    · subst hzero
      rw [shiftId_root, get_modify_of_ne hother, get_merge_left hother hlt]
    · have hpos : 0 < id := Nat.pos_of_ne_zero hzero
      rw [shiftId_of_ne hzero, get_modify_of_ne (by omega),
        get_merge_left hother hlt]
  · intro other hother hlt
    rw [count_modify] at hlt
    have hpos : 0 < other := Nat.pos_of_ne_zero hother
    by_cases hsame : other = id
    · subst hsame
      rw [shiftId_of_ne hother, get_modify_self (by omega),
        get_modify_self hid, get_merge_right ht hother hid, hshift]
    · have hne : other + (t.count - 1) ≠ shiftId (t.count - 1) id := by
        by_cases hzero : id = root
        · rw [hzero, shiftId_root, root]
          omega
        · rw [shiftId_of_ne hzero]
          omega
      rw [get_modify_of_ne hne, get_modify_of_ne hsame,
        get_merge_right ht hother hlt]

theorem merge_declare (ht : 0 < t.count) (hid : id < u.count)
    (d : Declaration) :
    (t.merge u).declare (shiftId (t.count - 1) id) d =
      t.merge (u.declare id d) :=
  merge_modify ht hid (fun m => m.shift_declare d _)
    fun m n => m.append_declare n d

/-- The number that the next module gets. -/
theorem count_merge_eq_shiftId (ht : 0 < t.count) (hu : 0 < u.count) :
    (t.merge u).count = shiftId (t.count - 1) u.count := by
  have hne : u.count ≠ root := Nat.ne_of_gt hu
  rw [count_merge, shiftId_of_ne hne]
  omega

theorem merge_push (ht : 0 < t.count) (hu : 0 < u.count) (m : ModuleDecl) :
    ⟨(t.merge u).modules.push (m.shift (t.count - 1)),
        (t.merge u).directives⟩ =
      t.merge ⟨u.modules.push m, u.directives⟩ := by
  have hcount : (t.merge u).count = t.count + (u.count - 1) := count_merge
  have hgrown : ModuleTree.count ⟨u.modules.push m, u.directives⟩ =
      u.count + 1 := by simp [count]
  refine eq_merge ht (by omega) ?_ ?_ ?_ ?_ rfl
  · rw [hgrown, count, Array.size_push]
    change (t.merge u).count + 1 = _
    omega
  · have hne : root ≠ (t.merge u).count := by
      rw [root]
      omega
    have hne' : root ≠ u.count := Nat.ne_of_lt hu
    rw [get_push_of_ne hne, get_push_of_ne hne', get_merge_root ht]
  · intro id hid hlt
    rw [get_push_of_ne (by omega), get_merge_left hid hlt]
  · intro id hid hlt
    rw [hgrown] at hlt
    by_cases hlast : id = u.count
    · have hplace : id + (t.count - 1) = (t.merge u).count := by omega
      rw [hplace, get_push_self, hlast, get_push_self]
    · rw [get_push_of_ne (by omega), get_push_of_ne hlast,
        get_merge_right ht hid (by omega)]

theorem merge_addChild (ht : 0 < t.count) (hid : id < u.count)
    (name : String) :
    (t.merge u).addChild (shiftId (t.count - 1) id) name =
      t.merge (u.addChild id name) := by
  have hu : 0 < u.count := Nat.lt_of_le_of_lt (Nat.zero_le _) hid
  have hgrown : id < ModuleTree.count
      ⟨u.modules.push (.fresh name (some id)), u.directives⟩ := by
    simpa [count] using Nat.lt_succ_of_lt hid
  have hlink := merge_modify ht hgrown
    (f := fun m => { m with children := m.children ++ [u.count] })
    (g := fun m => { m with
      children := m.children ++ [shiftId (t.count - 1) u.count] })
    (fun m => by simp [ModuleDecl.shift])
    fun m n => by simp [ModuleDecl.append]
  rw [addChild, addChild, count_merge_eq_shiftId ht hu, ← hlink,
    ← merge_push ht hu]
  rfl

end

end ModuleTree

end Idl
