import Idl.Proofs.Module.Linked
import Idl.Proofs.Module.Numbering
import Mathlib.Data.List.Induction

/-!
# Looking modules up by their paths

A path is taken apart at its marks and followed down from the root, at each
step to the first module of the next name and never back.  What is found has
that path, and no older sibling has the name of a module on the way.  A path
that was put together from names is taken apart into the same names if no name
has a colon in it; then a module is found by its path unless a sibling of it,
or of a module around it, is in front.
-/

namespace Idl.ModuleTree

/-! ## Cutting and joining -/

section
variable {cs ds : List Char} {segments : List (List Char)}

theorem splitPath_ne_nil (cs : List Char) : splitPath cs ≠ [] := by
  fun_cases splitPath cs <;> simp

theorem intercalate_splitPath (cs : List Char) :
    List.intercalate [':', ':'] (splitPath cs) = cs := by
  fun_induction splitPath cs with
  | case1 => rfl
  | case2 cs ih =>
      rw [List.intercalate_cons_of_ne_nil (splitPath_ne_nil cs), ih]
      rfl
  | case3 c cs _ hnone => exact absurd hnone (splitPath_ne_nil cs)
  | case4 c cs _ segment rest hsplit ih =>
      rw [hsplit] at ih
      cases rest with
      | nil => simpa using ih
      | cons next rest => simpa using ih

theorem splitPath_cons {c : Char} (hc : c ≠ ':') (cs : List Char) :
    splitPath (c :: cs) = (splitPath cs).modifyHead (c :: ·) := by
  cases hsplit : splitPath cs with
  | nil => exact absurd hsplit (splitPath_ne_nil cs)
  | cons segment rest =>
      rw [splitPath, hsplit]
      · rfl
      · rintro ds rfl
        exact absurd rfl hc

theorem splitPath_of_notMem (h : ':' ∉ cs) : splitPath cs = [cs] := by
  induction cs with
  | nil => rfl
  | cons c cs ih =>
      simp only [List.mem_cons, not_or] at h
      rw [splitPath_cons (Ne.symm h.1), ih h.2]
      rfl

theorem splitPath_append (h : ':' ∉ cs) (ds : List Char) :
    splitPath (cs ++ ':' :: ':' :: ds) = cs :: splitPath ds := by
  induction cs with
  | nil => simp [splitPath]
  | cons c cs ih =>
      simp only [List.mem_cons, not_or] at h
      rw [List.cons_append, splitPath_cons (Ne.symm h.1), ih h.2]
      rfl

theorem splitPath_intercalate (hne : segments ≠ [])
    (h : ∀ segment ∈ segments, ':' ∉ segment) :
    splitPath (List.intercalate [':', ':'] segments) = segments := by
  induction segments with
  | nil => exact absurd rfl hne
  | cons segment segments ih =>
      rw [List.forall_mem_cons] at h
      cases segments with
      | nil =>
          rw [List.intercalate_singleton]
          exact splitPath_of_notMem h.1
      | cons next rest =>
          have hmark : ∀ rest : List Char, segment ++ [':', ':'] ++ rest =
              segment ++ ':' :: ':' :: rest := by
            simp
          rw [List.intercalate_cons_cons, hmark, splitPath_append h.1,
            ih (by simp) h.2]

end

/-! ## The first of a name -/

/-- No module in front of it in its parent has the name of the module. -/
def Foremost (t : ModuleTree) (id : Nat) : Prop :=
  ∀ parent, t.parent? id = some parent → ∃ front back,
    t.children parent = front ++ id :: back ∧
      ∀ sibling ∈ front, (t.get sibling).name ≠ (t.get id).name

section
variable {t : ModuleTree} {id parent : Nat} {name : String}
  {names : List String}

theorem Linked.child?_eq_some_iff (h : t.Linked) :
    t.child? parent name = some id ↔
      t.parent? id = some parent ∧ (t.get id).name = name ∧
        t.Foremost id := by
  rw [child?, List.find?_eq_some_iff_append]
  simp only [beq_iff_eq, Bool.not_eq_true', beq_eq_false_iff_ne]
  constructor
  · rintro ⟨rfl, front, back, hchildren, hfront⟩
    have hmem : id ∈ t.children parent := by simp [hchildren]
    have hparent := (h.mem_children id parent).mp hmem
    refine ⟨hparent, rfl, fun other hother => ?_⟩
    rw [hparent] at hother
    cases hother
    exact ⟨front, back, hchildren, hfront⟩
  · rintro ⟨hparent, rfl, hforemost⟩
    exact ⟨rfl, hforemost parent hparent⟩

/-! ## Going down -/

theorem descend?_concat (t : ModuleTree) (id : Nat) (names : List String)
    (name : String) :
    t.descend? id (names ++ [name]) =
      (t.descend? id names).bind fun parent => t.child? parent name := by
  induction names generalizing id with
  | nil =>
      cases hchild : t.child? id name <;> simp [descend?, hchild]
  | cons first names ih =>
      cases hchild : t.child? id first with
      | none => simp [descend?, hchild]
      | some child => simpa [descend?, hchild] using ih child

theorem Linked.segments_root (h : t.Linked) : t.segments root = [] :=
  segments_of_none ((h.parent?_eq_none root h.root_lt).mpr rfl)

/-- Only the segments of its path lead from the root to a module. -/
theorem Linked.segments_of_descend? (h : t.Linked)
    (hdown : t.descend? root names = some id) :
    id < t.count ∧ t.segments id = names := by
  induction names using List.reverseRecOn generalizing id with
  | nil =>
      cases hdown
      exact ⟨h.root_lt, h.segments_root⟩
  | append_singleton names name ih =>
      rw [descend?_concat, Option.bind_eq_some_iff] at hdown
      obtain ⟨parent, hparent, hchild⟩ := hdown
      obtain ⟨hlink, rfl, -⟩ := h.child?_eq_some_iff.mp hchild
      have habove := ih hparent
      refine ⟨lt_count_of_parent? hlink, ?_⟩
      rw [segments_of_parent hlink (h.parent_lt _ _ hlink), habove.2]

/-- The segments of its path lead to a module if it and all modules around it
are the first of their names. -/
theorem Linked.descend?_segments (h : t.Linked) (hid : id < t.count) :
    t.descend? root (t.segments id) = some id ↔
      ∀ outer, t.Encloses outer id → t.Foremost outer := by
  induction id using Nat.strongRecOn with
  | ind id ih =>
      cases hparent : t.parent? id with
      | none =>
          obtain rfl := (h.parent?_eq_none id hid).mp hparent
          rw [h.segments_root]
          refine iff_of_true rfl fun outer hencloses => ?_
          cases hencloses with
          | self => exact fun parent hlink => absurd rfl (h.ne_root hlink)
          | inside hlink => exact absurd rfl (h.ne_root hlink)
      | some parent =>
          have hlt := h.parent_lt id parent hparent
          have habove := ih parent hlt (by omega)
          have hchild : ∀ other,
              t.child? other (t.get id).name = some id ↔
                other = parent ∧ t.Foremost id := by
            intro other
            rw [h.child?_eq_some_iff, hparent]
            simp [eq_comm]
          rw [segments_of_parent hparent hlt, descend?_concat,
            Option.bind_eq_some_iff]
          simp only [hchild]
          constructor
          · rintro ⟨_, hdown, rfl, hself⟩ outer hencloses
            cases hencloses with
            | self => exact hself
            | inside hparent' houter =>
                rw [hparent] at hparent'
                cases hparent'
                exact habove.mp hdown outer houter
          · intro hall
            have hdown := habove.mpr fun outer houter =>
              hall outer (.inside hparent houter)
            exact ⟨parent, hdown, rfl, hall id .self⟩

/-! ## Paths -/

/-- What holds of the names of all modules but the root holds of every segment
of a path. -/
theorem Linked.forall_mem_segments (h : t.Linked) {p : String → Prop}
    (hnames : ∀ id < t.count, id ≠ root → p (t.get id).name)
    (hid : id < t.count) : ∀ segment ∈ t.segments id, p segment := by
  induction id using Nat.strongRecOn with
  | ind id ih =>
      cases hparent : t.parent? id with
      | none =>
          rw [segments_of_none hparent]
          exact List.forall_mem_nil _
      | some parent =>
          have hlt := h.parent_lt id parent hparent
          have hname := hnames id hid (h.ne_root hparent)
          rw [segments_of_parent hparent hlt]
          exact List.forall_mem_append.mpr ⟨ih parent hlt (by omega),
            List.forall_mem_singleton.mpr hname⟩

theorem toList_path (t : ModuleTree) (id : Nat) :
    (t.path id).toList =
      List.intercalate [':', ':'] ((t.segments id).map String.toList) := by
  rw [path, String.toList_intercalate]
  rfl

/-- A path is taken apart into its segments; only that of the root cannot be
told from an empty name. -/
theorem split_path (hne : t.segments id ≠ [])
    (h : ∀ segment ∈ t.segments id, ':' ∉ segment.toList) :
    (splitPath (t.path id).toList).map String.ofList = t.segments id := by
  rw [toList_path, splitPath_intercalate (by simpa using hne)
    (List.forall_mem_map.mpr h), List.map_map]
  exact List.map_id'' (fun _ => String.ofList_toList) _

theorem path_of_split {p : String}
    (h : t.segments id = (splitPath p.toList).map String.ofList) :
    t.path id = p := by
  have hsegments : (t.segments id).map String.toList = splitPath p.toList := by
    rw [h, List.map_map]
    exact List.map_id'' (fun _ => String.toList_ofList) _
  rw [← String.toList_inj, toList_path, hsegments, intercalate_splitPath]

theorem Linked.path_root (h : t.Linked) : t.path root = "" := by
  rw [path, h.segments_root]
  simp

theorem Linked.segments_ne_nil (h : t.Linked) (hid : id < t.count)
    (hne : id ≠ root) : t.segments id ≠ [] := by
  cases hparent : t.parent? id with
  | none => exact absurd ((h.parent?_eq_none id hid).mp hparent) hne
  | some parent =>
      rw [segments_of_parent hparent (h.parent_lt id parent hparent)]
      simp

/-- What is found was reached along its own path. -/
theorem Linked.of_find? (h : t.Linked) {p : String}
    (hfind : t.find? p = some id) :
    id < t.count ∧ t.path id = p ∧
      t.descend? root (t.segments id) = some id := by
  rw [find?] at hfind
  split at hfind
  next hp =>
    cases hfind
    rw [h.segments_root]
    exact ⟨h.root_lt, h.path_root.trans hp.symm, rfl⟩
  next =>
    have hdown := h.segments_of_descend? hfind
    rw [hdown.2]
    exact ⟨hdown.1, path_of_split hdown.2, hfind⟩

/-- Looking up the path of a module is going down along its segments, if names
are not empty and hold no colon. -/
theorem Linked.find?_eq_descend? (h : t.Linked)
    (hnames : ∀ id < t.count, id ≠ root →
      (t.get id).name ≠ "" ∧ ':' ∉ (t.get id).name.toList)
    (hid : id < t.count) :
    t.find? (t.path id) = t.descend? root (t.segments id) := by
  by_cases hroot : id = root
  · rw [hroot, h.path_root, h.segments_root]
    rfl
  · have hne := h.segments_ne_nil hid hroot
    have hsegments : ∀ segment ∈ t.segments id,
        segment ≠ "" ∧ ':' ∉ segment.toList :=
      h.forall_mem_segments hnames hid
    have hsplit := split_path hne fun segment hmem => (hsegments segment hmem).2
    have hpath : t.path id ≠ "" := by
      intro hnone
      -- an empty path would be taken apart into one empty name
      rw [hnone] at hsplit
      have hmem : "" ∈ t.segments id := by
        rw [← hsplit]
        simp [splitPath]
      exact (hsegments "" hmem).1 rfl
    rw [find?, if_neg hpath, hsplit]

/-- What is found by a path has that path, and it and all modules around it are
the first of their names.  If names are not empty and hold no colon, every
such module is found by its path. -/
theorem Built.find?_path (h : t.Built) :
    (∀ p id, t.find? p = some id → id < t.count ∧ t.path id = p ∧
      ∀ outer, t.Encloses outer id → t.Foremost outer) ∧
    ((∀ id < t.count, id ≠ root →
        (t.get id).name ≠ "" ∧ ':' ∉ (t.get id).name.toList) →
      ∀ id < t.count, (t.find? (t.path id) = some id ↔
        ∀ outer, t.Encloses outer id → t.Foremost outer)) := by
  have hlinked := h.linked
  constructor
  · intro p id hfind
    obtain ⟨hid, hpath, hdown⟩ := hlinked.of_find? hfind
    exact ⟨hid, hpath, (hlinked.descend?_segments hid).mp hdown⟩
  · intro hnames id hid
    rw [hlinked.find?_eq_descend? hnames hid]
    exact hlinked.descend?_segments hid

end

/-- Two modules of one name, with a module in each. -/
def reopened : ModuleTree :=
  (((empty.addChild root "A").addChild root "A").addChild 2 "B").addChild 1 "C"

theorem built_reopened : reopened.Built := by
  have hone : Built (empty.addChild root "A") :=
    Built.empty.addChild (by decide) "A"
  have htwo : Built ((empty.addChild root "A").addChild root "A") :=
    hone.addChild (by decide) "A"
  have hthree := htwo.addChild (show 2 < _ by decide) "B"
  exact hthree.addChild (show 1 < _ by decide) "C"

/-- Only what is in the first of the two modules is found. -/
theorem find?_path_reopened :
    reopened.Built ∧
      (∀ id < reopened.count, id ≠ root →
        (reopened.get id).name ≠ "" ∧ ':' ∉ (reopened.get id).name.toList) ∧
      (reopened.find? "A::C" = some 4 ∧ reopened.path 4 = "A::C" ∧
        reopened.Foremost 1) ∧
      (reopened.path 3 = "A::B" ∧ reopened.find? "A::B" = none ∧
        ¬ ∀ outer, reopened.Encloses outer 3 → reopened.Foremost outer) := by
  have hnames : ∀ id < reopened.count, id ≠ root →
      (reopened.get id).name ≠ "" ∧
        ':' ∉ (reopened.get id).name.toList := by
    decide
  have hinside : reopened.find? "A::C" = some 4 := by decide +kernel
  have hfound := built_reopened.find?_path.1 "A::C" 4 hinside
  have hlost := built_reopened.find?_path.2 hnames 3 (by decide)
  refine ⟨built_reopened, hnames, ⟨hinside, hfound.2.1, ?_⟩,
    by decide +kernel, by decide +kernel, ?_⟩
  · exact hfound.2.2 1 (.inside rfl .self)
  · rw [← hlost]
    decide +kernel

end Idl.ModuleTree
