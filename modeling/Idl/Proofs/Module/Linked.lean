import Idl.Proofs.Module.Tree

/-!
# The links of a module tree

Modules may be added anywhere in a tree and in any order, so their numbers say
little about where they stand.  What is kept all the same is that parents and
nested modules are linked in both directions, that a parent is older than the
modules in it, and that the modules in it are listed by age.
-/

namespace Idl

/-- The change leaves the places of the modules around and in a module as they
are; what the module declares may change. -/
structure ModuleDecl.KeepsLinks (f : ModuleDecl → ModuleDecl) : Prop where
  parent : ∀ m, (f m).parent = m.parent
  children : ∀ m, (f m).children = m.children

theorem ModuleDecl.keepsLinks_declare (d : Declaration) :
    KeepsLinks (·.declare d) where
  parent m := m.parent_declare d
  children m := by cases d <;> rfl

namespace ModuleTree

/-- Trees that are made from the empty one: modules are added in modules that
are there, directives behind the others, and declarations in any module. -/
inductive Built : ModuleTree → Prop where
  | empty : Built .empty
  | addChild {t : ModuleTree} {parent : Nat} (h : Built t)
      (hparent : parent < t.count) (name : String) :
      Built (t.addChild parent name)
  | addDirective {t : ModuleTree} (h : Built t) (d : Directive) :
      Built (t.addDirective d)
  | change {t : ModuleTree} {f : ModuleDecl → ModuleDecl} (h : Built t)
      (hf : ModuleDecl.KeepsLinks f) (id : Nat) : Built (t.modify id f)

structure Linked (t : ModuleTree) : Prop where
  root_lt : root < t.count
  parent?_eq_none : ∀ id, id < t.count → (t.parent? id = none ↔ id = root)
  parent_lt : ∀ id parent, t.parent? id = some parent → parent < id
  increasing : ∀ parent, (t.children parent).Pairwise (· < ·)
  mem_children : ∀ id parent,
    id ∈ t.children parent ↔ t.parent? id = some parent

section
variable {t u : ModuleTree} {id parent : Nat} {name : String}

/-! ## Places without a module -/

theorem get_of_count_le (h : t.count ≤ id) : t.get id = .fresh "" none := by
  have hsize : t.modules.size ≤ id := h
  simp [get, Array.getElem?_eq_none hsize]

theorem lt_count_of_parent? (h : t.parent? id = some parent) :
    id < t.count := by
  refine Nat.lt_of_not_le fun hout => ?_
  rw [parent?, get_of_count_le hout] at h
  cases h

/-- Only the root stands in no module. -/
theorem Linked.ne_root (h : t.Linked) (hparent : t.parent? id = some parent) :
    id ≠ root :=
  Nat.ne_zero_of_lt (h.parent_lt id parent hparent)

theorem children_of_count_le (h : t.count ≤ id) : t.children id = [] := by
  rw [children, get_of_count_le h]
  rfl

/-! ## The links of a larger tree -/

theorem parent?_addChild_eq (other : Nat) :
    (t.addChild parent name).parent? other =
      if other = t.count then some parent else t.parent? other := by
  by_cases hnew : other = t.count
  · rw [if_pos hnew, hnew]
    exact parent?_addChild_self
  · rw [if_neg hnew]
    by_cases hold : other < t.count
    · exact parent?_addChild hold
    · have hcount : (t.addChild parent name).count = t.count + 1 :=
        count_addChild
      have hout : (t.addChild parent name).count ≤ other := by omega
      rw [parent?, get_of_count_le hout, parent?,
        get_of_count_le (by omega : t.count ≤ other)]

theorem children_addChild_eq (hparent : parent < t.count) (other : Nat) :
    (t.addChild parent name).children other =
      if other = parent then t.children parent ++ [t.count]
      else t.children other := by
  by_cases hsame : other = parent
  · rw [if_pos hsame, hsame, children, get_addChild_parent hparent]
    rfl
  · rw [if_neg hsame]
    by_cases hnew : other = t.count
    · rw [hnew, children, get_addChild_self hparent,
        children_of_count_le (Nat.le_refl _)]
      rfl
    · rw [children, get_addChild_of_ne hnew hsame]
      rfl

/-! ## The links are kept -/

theorem linked_empty : Linked .empty where
  root_lt := Nat.zero_lt_one
  parent?_eq_none id hid := by
    have hroot : id = root := Nat.lt_one_iff.mp hid
    subst hroot
    simp [parent?, get, empty, root, ModuleDecl.fresh]
  parent_lt id parent h := by
    have hid : id = root := Nat.lt_one_iff.mp (lt_count_of_parent? h)
    subst hid
    cases h
  increasing parent := by
    by_cases hroot : parent = root
    · subst hroot
      exact .nil
    · have hout : ModuleTree.empty.count ≤ parent := Nat.pos_of_ne_zero hroot
      rw [children_of_count_le hout]
      exact .nil
  mem_children id parent := by
    constructor
    · intro h
      by_cases hroot : parent = root
      · subst hroot
        cases h
      · have hout : ModuleTree.empty.count ≤ parent :=
          Nat.pos_of_ne_zero hroot
        rw [children_of_count_le hout] at h
        cases h
    · intro h
      have hid : id = root := Nat.lt_one_iff.mp (lt_count_of_parent? h)
      subst hid
      cases h

/-- What no link depends on may differ. -/
theorem Linked.congr (h : t.Linked) (hcount : u.count = t.count)
    (hparents : ∀ id, u.parent? id = t.parent? id)
    (hchildren : ∀ id, u.children id = t.children id) : u.Linked where
  root_lt := by
    rw [hcount]
    exact h.root_lt
  parent?_eq_none id hid := by
    rw [hparents]
    exact h.parent?_eq_none id (hcount ▸ hid)
  parent_lt id parent hparent := by
    rw [hparents] at hparent
    exact h.parent_lt id parent hparent
  increasing parent := by
    rw [hchildren]
    exact h.increasing parent
  mem_children id parent := by
    rw [hparents, hchildren]
    exact h.mem_children id parent

/-- The new module is younger than all others and so comes last in its
parent. -/
theorem Linked.addChild (h : t.Linked) (hparent : parent < t.count)
    (name : String) : (t.addChild parent name).Linked where
  root_lt := by
    have hroot := h.root_lt
    rw [count_addChild]
    omega
  parent?_eq_none id hid := by
    rw [count_addChild] at hid
    rw [parent?_addChild_eq]
    by_cases hnew : id = t.count
    · have hroot := h.root_lt
      have hne : id ≠ root := by omega
      simp [hnew, hnew ▸ hne]
    · rw [if_neg hnew]
      exact h.parent?_eq_none id (by omega)
  parent_lt id other hother := by
    rw [parent?_addChild_eq] at hother
    by_cases hnew : id = t.count
    · rw [if_pos hnew] at hother
      cases hother
      omega
    · rw [if_neg hnew] at hother
      exact h.parent_lt id other hother
  increasing other := by
    rw [children_addChild_eq hparent]
    by_cases hsame : other = parent
    · rw [if_pos hsame]
      have hlast : ∀ id ∈ t.children parent, ∀ last ∈ [t.count],
          id < last := by
        intro id hid last hlast
        rw [List.mem_singleton.mp hlast]
        exact lt_count_of_parent? ((h.mem_children id parent).mp hid)
      exact List.pairwise_append.mpr
        ⟨h.increasing parent, List.pairwise_singleton _ _, hlast⟩
    · rw [if_neg hsame]
      exact h.increasing other
  mem_children id other := by
    have hold := h.mem_children id other
    rw [children_addChild_eq hparent, parent?_addChild_eq]
    by_cases hnew : id = t.count
    · rw [if_pos hnew, hnew]
      have hout : t.count ∉ t.children other := fun hmem => by
        rw [← hnew] at hmem
        have hlt := lt_count_of_parent? (hold.mp hmem)
        omega
      by_cases hsame : other = parent
      · simp [hsame]
      · have hapart : some parent ≠ some other := fun heq =>
          hsame (Option.some.inj heq).symm
        simp [hsame, hout, hapart]
    · rw [if_neg hnew]
      by_cases hsame : other = parent
      · rw [hsame] at hold
        simp [hnew, hsame, hold]
      · simp [hsame, hold]

theorem Built.linked (h : t.Built) : t.Linked := by
  induction h with
  | empty => exact linked_empty
  | addChild _ hparent name ih => exact ih.addChild hparent name
  | addDirective _ d ih => exact ih.congr rfl (fun _ => rfl) fun _ => rfl
  | change _ hf id ih =>
      exact ih.congr count_modify (fun _ => get_modify_unchanged hf.parent)
        fun _ => get_modify_unchanged hf.children

end

end ModuleTree

end Idl
