import Idl.Module.Tree
import Mathlib.Logic.Basic

/-!
# Growing a module tree

Trees are changed at one place at a time, and grow at the end.  The lemmas
say what a change leaves alone: the number of modules, the modules at other
places, the directives, and the parents of the modules that are already
there.
-/

namespace Idl.ModuleDecl

theorem parent_declare (m : ModuleDecl) (d : Declaration) :
    (m.declare d).parent = m.parent := by
  cases d <;> rfl

theorem name_declare (m : ModuleDecl) (d : Declaration) :
    (m.declare d).name = m.name := by
  cases d <;> rfl

end Idl.ModuleDecl

namespace Idl.ModuleTree

variable {t u : ModuleTree} {id other parent : Nat}
  {f g : ModuleDecl → ModuleDecl}

/-! ## Trees by their modules -/

theorem get_of_lt (h : id < t.modules.size) : t.get id = t.modules[id] := by
  simp [get, Array.getElem?_eq_getElem h]

theorem ext_get (hcount : t.count = u.count)
    (hget : ∀ id, id < t.count → t.get id = u.get id)
    (hdirectives : t.directives = u.directives) : t = u := by
  rcases t with ⟨ms, ds⟩
  rcases u with ⟨ns, es⟩
  obtain rfl : ds = es := hdirectives
  have hmodules : ms = ns := by
    refine Array.ext hcount fun id h h' => ?_
    have hid := hget id h
    rwa [get_of_lt h, get_of_lt h'] at hid
  rw [hmodules]

/-! ## Changing a module -/

@[simp] theorem count_modify : (t.modify id f).count = t.count := by
  simp [modify, count]

theorem get_modify_self (h : id < t.count) :
    (t.modify id f).get id = f (t.get id) := by
  have h' : id < (t.modify id f).count := by simpa using h
  rw [get_of_lt h, get_of_lt h']
  exact Array.getElem_modify_self f _

theorem get_modify_of_ne (h : other ≠ id) :
    (t.modify id f).get other = t.get other := by
  simp [get, modify, Array.getElem?_modify, h.symm]

theorem modify_eq_self (hf : ∀ m, f m = m) : t.modify id f = t := by
  refine ext_get (by simp) (fun other hother => ?_) rfl
  by_cases hsame : other = id
  · subst hsame
    rw [count_modify] at hother
    rw [get_modify_self hother, hf]
  · exact get_modify_of_ne hsame

theorem modify_of_count_le (h : t.count ≤ id) : t.modify id f = t := by
  refine ext_get (by simp) (fun other hother => ?_) rfl
  have hne : other ≠ id := by
    rw [count_modify] at hother
    omega
  exact get_modify_of_ne hne

theorem modify_modify :
    (t.modify id f).modify id g = t.modify id fun m => g (f m) := by
  by_cases h : id < t.count
  · refine ext_get (by simp) (fun other _ => ?_) rfl
    by_cases hother : other = id
    · subst hother
      rw [get_modify_self (by simpa using h), get_modify_self h,
        get_modify_self h]
    · simp only [get_modify_of_ne hother]
  · have hle : t.count ≤ id := by omega
    simp only [modify_of_count_le hle]

theorem modify_congr (h : f (t.get id) = g (t.get id)) :
    t.modify id f = t.modify id g := by
  by_cases hid : id < t.count
  · refine ext_get (by simp) (fun other _ => ?_) rfl
    by_cases hother : other = id
    · subst hother
      rw [get_modify_self hid, get_modify_self hid, h]
    · simp only [get_modify_of_ne hother]
  · have hle : t.count ≤ id := by omega
    simp only [modify_of_count_le hle]

/-- What no change touches stays as it is in every module. -/
theorem get_modify_unchanged {α : Type} {field : ModuleDecl → α}
    (hf : ∀ m, field (f m) = field m) :
    field ((t.modify id f).get other) = field (t.get other) := by
  by_cases hother : other = id
  · subst hother
    by_cases h : other < t.count
    · rw [get_modify_self h, hf]
    · rw [modify_of_count_le (by omega)]
  · rw [get_modify_of_ne hother]

theorem parent?_modify (hf : ∀ m, (f m).parent = m.parent) :
    (t.modify id f).parent? other = t.parent? other :=
  get_modify_unchanged hf

/-! ## Adding a module -/

@[simp] theorem count_addChild {name : String} :
    (t.addChild parent name).count = t.count + 1 := by
  simp [addChild, modify, count]

theorem get_push_of_ne {m : ModuleDecl} (h : id ≠ t.count) :
    ModuleTree.get { t with modules := t.modules.push m } id = t.get id := by
  have hsize : id ≠ t.modules.size := h
  simp [get, Array.getElem?_push, hsize]

theorem get_push_self {m : ModuleDecl} :
    ModuleTree.get { t with modules := t.modules.push m } t.count = m := by
  simp [get, count]

theorem get_addChild_self {name : String} (h : parent < t.count) :
    (t.addChild parent name).get t.count = .fresh name (some parent) := by
  have hne : t.count ≠ parent := by omega
  simp only [addChild, get_modify_of_ne hne, get_push_self]

theorem get_addChild_parent {name : String} (h : parent < t.count) :
    (t.addChild parent name).get parent =
      { t.get parent with
        children := (t.get parent).children ++ [t.count] } := by
  have hne : parent ≠ t.count := by omega
  have hlt : parent < ModuleTree.count
      { t with modules := t.modules.push (.fresh name (some parent)) } := by
    simpa [count] using Nat.lt_succ_of_lt h
  simp only [addChild, get_modify_self hlt, get_push_of_ne hne]

theorem get_addChild_of_ne {name : String} (hother : other ≠ t.count)
    (hne : other ≠ parent) :
    (t.addChild parent name).get other = t.get other := by
  simp only [addChild, get_modify_of_ne hne, get_push_of_ne hother]

theorem parent?_addChild_self {name : String} :
    (t.addChild parent name).parent? t.count = some parent := by
  have hparent : ∀ m : ModuleDecl,
      { m with children := m.children ++ [t.count] }.parent = m.parent :=
    fun _ => rfl
  rw [addChild, parent?_modify hparent, parent?, get_push_self]
  rfl

theorem parent?_addChild {name : String} (hother : other < t.count) :
    (t.addChild parent name).parent? other = t.parent? other := by
  have hparent : ∀ m : ModuleDecl,
      { m with children := m.children ++ [t.count] }.parent = m.parent :=
    fun _ => rfl
  have hne : other ≠ t.count := by omega
  rw [addChild, parent?_modify hparent, parent?, get_push_of_ne hne]
  rfl

/-! ## Extending a tree -/

/-- The modules of the first tree are modules of the second, with the same
parents and names. -/
structure Extends (t u : ModuleTree) : Prop where
  count_le : t.count ≤ u.count
  parent? : ∀ other, other < t.count → u.parent? other = t.parent? other
  name : ∀ other, other < t.count → (u.get other).name = (t.get other).name

theorem Extends.refl (t : ModuleTree) : Extends t t :=
  ⟨Nat.le_refl _, fun _ _ => rfl, fun _ _ => rfl⟩

theorem Extends.trans {v : ModuleTree} (h : Extends t u) (h' : Extends u v) :
    Extends t v where
  count_le := Nat.le_trans h.count_le h'.count_le
  parent? other hother := by
    rw [h'.parent? other (Nat.lt_of_lt_of_le hother h.count_le),
      h.parent? other hother]
  name other hother := by
    rw [h'.name other (Nat.lt_of_lt_of_le hother h.count_le),
      h.name other hother]

theorem extends_modify (hparent : ∀ m, (f m).parent = m.parent)
    (hname : ∀ m, (f m).name = m.name) : Extends t (t.modify id f) where
  count_le := by simp
  parent? _ _ := get_modify_unchanged hparent
  name _ _ := get_modify_unchanged hname

theorem extends_declare (d : Declaration) : Extends t (t.declare id d) :=
  extends_modify (fun m => m.parent_declare d) fun m => m.name_declare d

theorem extends_addDirective (d : Directive) : Extends t (t.addDirective d) :=
  ⟨Nat.le_refl _, fun _ _ => rfl, fun _ _ => rfl⟩

theorem extends_addChild (name : String) :
    Extends t (t.addChild parent name) where
  count_le := by simp
  parent? _ hother := parent?_addChild hother
  name other hother := by
    have hname : ∀ m : ModuleDecl,
        { m with children := m.children ++ [t.count] }.name = m.name :=
      fun _ => rfl
    have hne : other ≠ t.count := by omega
    rw [addChild, get_modify_unchanged hname, get_push_of_ne hne]

end Idl.ModuleTree
