import Idl.Proofs.Module.Linked
import Idl.Proofs.Module.Numbering

/-!
# A walk visits every module once

The walk keeps a stack, and `Preorder` says without one what it should yield:
each of some siblings, followed by what is nested in it.  In a tree with proper
links there are such visits for all siblings, since modules nested in others
are younger.  The modules that are visited are those enclosed by one of the
siblings, and as two siblings never enclose the same module none is visited
twice.  From the root every module is reached, so there are as many visits as
modules, which is the number of steps that the walk takes.
-/

namespace Idl.ModuleTree

/-- The visits of siblings at a depth, each in front of those nested in it. -/
inductive Preorder (t : ModuleTree) :
    Nat → List Nat → List (Nat × Nat) → Prop where
  | nil {depth : Nat} : Preorder t depth [] []
  | cons {depth id : Nat} {ids : List Nat} {inner more : List (Nat × Nat)}
      (hinner : Preorder t (depth + 1) (t.children id) inner)
      (hmore : Preorder t depth ids more) :
      Preorder t depth (id :: ids) ((id, depth) :: (inner ++ more))

/-- The modules on the way down to a module, from the outermost one below the
root.  They are found by going from parent to parent. -/
inductive Lineage (t : ModuleTree) : Nat → List Nat → Prop where
  | top {id : Nat} (hparent : t.parent? id = none) : Lineage t id []
  | inside {id parent : Nat} {line : List Nat}
      (hparent : t.parent? id = some parent) (hline : Lineage t parent line) :
      Lineage t id (line ++ [id])

/-- The visits are all modules in pre-order, each once, with depths that count
the steps from parent to parent up to the root. -/
structure Traversed (t : ModuleTree) (visits : List (Nat × Nat)) : Prop where
  preorder : t.Preorder 0 [root] visits
  ids : (visits.map Prod.fst).Perm (List.range t.count)
  depth : ∀ id depth, (id, depth) ∈ visits →
    ∃ line, t.Lineage id line ∧ line.length = depth

section
variable {t : ModuleTree} {id parent first second depth : Nat}
  {ids line : List Nat} {visits : List (Nat × Nat)}

/-! ## Lineages -/

theorem Linked.exists_lineage (h : t.Linked) (id : Nat) :
    ∃ line, t.Lineage id line := by
  induction id using Nat.strongRecOn with
  | ind id ih =>
      cases hparent : t.parent? id with
      | none => exact ⟨[], .top hparent⟩
      | some parent =>
          have habove := ih parent (h.parent_lt id parent hparent)
          rcases habove with ⟨line, hline⟩
          exact ⟨line ++ [id], .inside hparent hline⟩

theorem Lineage.segments (hline : t.Lineage id line) (h : t.Linked) :
    t.segments id = line.map fun id => (t.get id).name := by
  induction hline with
  | top hparent => exact segments_of_none hparent
  | inside hparent _ ih =>
      rw [segments_of_parent hparent (h.parent_lt _ _ hparent), ih,
        List.map_append]
      rfl

theorem Lineage.path (hline : t.Lineage id line) (h : t.Linked) :
    t.path id =
      String.intercalate "::" (line.map fun id => (t.get id).name) := by
  rw [ModuleTree.path, hline.segments h]

/-! ## Enclosing modules -/

theorem Encloses.le (hencloses : t.Encloses first id) (h : t.Linked) :
    first ≤ id := by
  induction hencloses with
  | self => exact Nat.le_refl _
  | inside hparent _ ih =>
      have hlt := h.parent_lt _ _ hparent
      omega

/-- A module encloses itself and what its children enclose. -/
theorem Linked.encloses_iff (h : t.Linked) {outer : Nat} :
    t.Encloses outer id ↔
      id = outer ∨ ∃ child ∈ t.children outer, t.Encloses child id := by
  constructor
  · intro hencloses
    induction hencloses with
    | self => exact .inl rfl
    | @inside id parent hparent _ ih =>
        rcases ih with hsame | ⟨child, hchild, hinner⟩
        · rw [hsame] at hparent
          exact .inr ⟨id, (h.mem_children id outer).mpr hparent, .self⟩
        · exact .inr ⟨child, hchild, .inside hparent hinner⟩
  · rintro (hsame | ⟨child, hchild, hinner⟩)
    · rw [hsame]
      exact .self
    · have hparent := (h.mem_children child outer).mp hchild
      exact (Encloses.inside hparent .self).trans hinner

theorem Linked.root_encloses (h : t.Linked) :
    t.Encloses root id ↔ id < t.count := by
  constructor
  · intro hencloses
    cases hencloses with
    | self => exact h.root_lt
    | inside hparent => exact lt_count_of_parent? hparent
  · intro hid
    induction id using Nat.strongRecOn with
    | ind id ih =>
        cases hparent : t.parent? id with
        | none =>
            rw [(h.parent?_eq_none id hid).mp hparent]
            exact .self
        | some parent =>
            have hlt := h.parent_lt id parent hparent
            exact .inside hparent (ih parent hlt (by omega))

/-- No module is nested in two siblings. -/
theorem Linked.sibling_eq (h : t.Linked)
    (hfirst : t.parent? first = some parent)
    (hsecond : t.parent? second = some parent)
    (houter : t.Encloses first id) (houter' : t.Encloses second id) :
    first = second := by
  have hlt := h.parent_lt first parent hfirst
  have hlt' := h.parent_lt second parent hsecond
  induction houter with
  | self =>
      cases houter' with
      | self => rfl
      | inside hparent hinner =>
          rw [hfirst] at hparent
          cases hparent
          have hle := hinner.le h
          omega
  | @inside id above hparent hinner ih =>
      cases houter' with
      | self =>
          rw [hsecond] at hparent
          cases hparent
          have hle := hinner.le h
          omega
      | inside hparent' hinner' =>
          rw [hparent] at hparent'
          cases hparent'
          exact ih hinner'

/-! ## Visits in pre-order -/

/-- Modules from a place on can be visited in pre-order; what is nested in one
of them stands behind it. -/
theorem Linked.exists_preorder (h : t.Linked) (ids : List Nat) (depth : Nat)
    (hids : ∀ id ∈ ids, id < t.count) :
    ∃ visits, t.Preorder depth ids visits := by
  have hfrom : ∀ left ids depth, (∀ id ∈ ids, id < t.count) →
      (∀ id ∈ ids, t.count ≤ id + left) →
        ∃ visits, t.Preorder depth ids visits := by
    intro left
    induction left with
    | zero =>
        intro ids depth hlt hle
        cases ids with
        | nil => exact ⟨[], .nil⟩
        | cons id ids =>
            have hid := hlt id List.mem_cons_self
            have hid' := hle id List.mem_cons_self
            omega
    | succ left ihleft =>
        intro ids depth hlt hle
        induction ids with
        | nil => exact ⟨[], .nil⟩
        | cons id ids ihids =>
            rw [List.forall_mem_cons] at hlt hle
            have hchildren : ∀ child ∈ t.children id,
                id < child ∧ child < t.count := by
              intro child hchild
              have hparent := (h.mem_children child id).mp hchild
              exact ⟨h.parent_lt child id hparent,
                lt_count_of_parent? hparent⟩
            have hinner := ihleft (t.children id) (depth + 1)
              (fun child hchild => (hchildren child hchild).2)
              fun child hchild => by
                have hid := (hchildren child hchild).1
                omega
            rcases hinner with ⟨inner, hinner⟩
            rcases ihids hlt.2 hle.2 with ⟨more, hmore⟩
            exact ⟨_, .cons hinner hmore⟩
  exact hfrom t.count ids depth hids fun id _ => Nat.le_add_left _ _

/-- The visits are to the modules that one of the siblings encloses. -/
theorem Preorder.mem_iff (hvisits : t.Preorder depth ids visits)
    (h : t.Linked) :
    id ∈ visits.map Prod.fst ↔ ∃ sibling ∈ ids, t.Encloses sibling id := by
  induction hvisits with
  | nil => simp
  | @cons depth first ids inner more _ _ ihinner ihmore =>
      rw [List.map_cons, List.map_append, List.mem_cons, List.mem_append,
        ihinner, ihmore, ← or_assoc, ← h.encloses_iff]
      simp

theorem Preorder.nodup (hvisits : t.Preorder depth ids visits)
    (h : t.Linked)
    (hapart : ids.Pairwise fun first second =>
      ∀ id, t.Encloses first id → ¬ t.Encloses second id) :
    (visits.map Prod.fst).Nodup := by
  induction hvisits with
  | nil => exact .nil
  | @cons depth first ids inner more hinner hmore ihinner ihmore =>
      have hfirst := List.pairwise_cons.mp hapart
      have hsiblings : (t.children first).Pairwise fun one other =>
          ∀ id, t.Encloses one id → ¬ t.Encloses other id := by
        refine (h.increasing first).imp_of_mem ?_
        intro one other hone hother hlt id houter houter'
        have hsame := h.sibling_eq ((h.mem_children one first).mp hone)
          ((h.mem_children other first).mp hother) houter houter'
        omega
      have hself : first ∉ inner.map Prod.fst := by
        rw [hinner.mem_iff h]
        rintro ⟨child, hchild, hencloses⟩
        have hparent := (h.mem_children child first).mp hchild
        have hlt := h.parent_lt child first hparent
        have hle := hencloses.le h
        omega
      have hbehind : first ∉ more.map Prod.fst := by
        rw [hmore.mem_iff h]
        rintro ⟨sibling, hsibling, hencloses⟩
        exact hfirst.1 sibling hsibling first .self hencloses
      have hdisjoint : ∀ one ∈ inner.map Prod.fst,
          ∀ other ∈ more.map Prod.fst, one ≠ other := by
        intro one hone other hother hsame
        rw [hinner.mem_iff h] at hone
        rw [← hsame, hmore.mem_iff h] at hother
        rcases hother with ⟨sibling, hsibling, hencloses⟩
        have houter := h.encloses_iff.mpr (.inr hone)
        exact hfirst.1 sibling hsibling one houter hencloses
      have hboth := List.nodup_append.mpr
        ⟨ihinner hsiblings, ihmore hfirst.2, hdisjoint⟩
      rw [List.map_cons, List.map_append]
      refine List.nodup_cons.mpr ⟨?_, hboth⟩
      rw [List.mem_append]
      exact not_or.mpr ⟨hself, hbehind⟩

theorem Preorder.lineage (hvisits : t.Preorder depth ids visits)
    (h : t.Linked)
    (hids : ∀ id ∈ ids, ∃ line, t.Lineage id line ∧ line.length = depth) :
    ∀ visit ∈ visits,
      ∃ line, t.Lineage visit.1 line ∧ line.length = visit.2 := by
  induction hvisits with
  | nil => exact nofun
  | @cons depth first ids inner more _ _ ihinner ihmore =>
      rw [List.forall_mem_cons] at hids
      have hchildren : ∀ child ∈ t.children first,
          ∃ line, t.Lineage child line ∧ line.length = depth + 1 := by
        intro child hchild
        rcases hids.1 with ⟨line, hline, hlength⟩
        have hparent := (h.mem_children child first).mp hchild
        exact ⟨line ++ [child], .inside hparent hline, by simp [hlength]⟩
      intro visit hvisit
      rcases List.mem_cons.mp hvisit with hfirst | hrest
      · rw [hfirst]
        exact hids.1
      · rcases List.mem_append.mp hrest with hinner | hmore
        · exact ihinner hchildren visit hinner
        · exact ihmore hids.2 visit hmore

/-! ## The walk -/

/-- A walk with siblings on top of its stack makes their visits first. -/
theorem Preorder.walkFrom (hvisits : t.Preorder depth ids visits)
    (steps : Nat) (rest : List (Nat × Nat)) :
    t.walkFrom (visits.length + steps) (ids.map (·, depth) ++ rest) =
      visits ++ t.walkFrom steps rest := by
  induction hvisits generalizing steps rest with
  | nil => simp
  | @cons depth first ids inner more _ _ ihinner ihmore =>
      have hsteps : ((first, depth) :: (inner ++ more)).length + steps =
          inner.length + (more.length + steps) + 1 := by
        rw [List.length_cons, List.length_append]
        omega
      calc
        t.walkFrom (((first, depth) :: (inner ++ more)).length + steps)
              ((first :: ids).map (·, depth) ++ rest) =
            (first, depth) ::
              t.walkFrom (inner.length + (more.length + steps))
                ((t.children first).map (·, depth + 1) ++
                  (ids.map (·, depth) ++ rest)) := by
              rw [hsteps]
              rfl
        _ = (first, depth) :: (inner ++ (more ++ t.walkFrom steps rest)) := by
              rw [ihinner, ihmore]
        _ = (first, depth) :: (inner ++ more) ++ t.walkFrom steps rest := by
              rw [List.cons_append, List.append_assoc]

/-- The visits from the root are to all modules. -/
theorem Preorder.traversed (hvisits : t.Preorder 0 [root] visits)
    (h : t.Linked) : t.Traversed visits where
  preorder := hvisits
  ids := by
    have hnodup := hvisits.nodup h (List.pairwise_singleton _ _)
    refine (List.perm_ext_iff_of_nodup hnodup List.nodup_range).mpr ?_
    intro id
    rw [hvisits.mem_iff h, List.mem_range, ← h.root_encloses]
    simp
  depth id depth hvisit := by
    have hroot : t.parent? root = none :=
      (h.parent?_eq_none root h.root_lt).mpr rfl
    have hsingle : ∀ id ∈ [root],
        ∃ line, t.Lineage id line ∧ line.length = 0 := by
      intro id hid
      rw [List.mem_singleton.mp hid]
      exact ⟨[], .top hroot, rfl⟩
    exact hvisits.lineage h hsingle (id, depth) hvisit

theorem Traversed.length_eq (h : t.Traversed visits) :
    visits.length = t.count := by
  have hlength := h.ids.length_eq
  rwa [List.length_map, List.length_range] at hlength

/-- The bound of the walk is the number of visits; with more steps it would
find nothing more to visit. -/
theorem Linked.walkFrom_root (h : t.Linked) (extra : Nat) :
    t.walkFrom (t.count + extra) [(root, 0)] = t.walk ∧
      t.Traversed t.walk := by
  have hroot : ∀ id ∈ [root], id < t.count :=
    List.forall_mem_singleton.mpr h.root_lt
  rcases h.exists_preorder [root] 0 hroot with ⟨visits, hvisits⟩
  have htraversed := hvisits.traversed h
  have hfinished : ∀ extra, t.walkFrom extra [] = [] := fun extra => by
    cases extra <;> rfl
  have hwalk : ∀ extra,
      t.walkFrom (t.count + extra) [(root, 0)] = visits := fun extra => by
    have hsteps := hvisits.walkFrom extra []
    simp only [hfinished, List.append_nil, htraversed.length_eq] at hsteps
    exact hsteps
  have hall : t.walk = visits := hwalk 0
  rw [hall]
  exact ⟨hwalk extra, htraversed⟩

/-- However a tree was made, its links are proper, every module has a finite
lineage that makes its path, and the walk comes to its end by itself, having
visited every module once and in pre-order. -/
theorem Built.linked_and_traversed (h : t.Built) :
    t.Linked ∧
      (∀ id < t.count, ∃ line, t.Lineage id line ∧
        t.path id =
          String.intercalate "::" (line.map fun id => (t.get id).name)) ∧
      (∀ extra, t.walkFrom (t.count + extra) [(root, 0)] = t.walk) ∧
      t.Traversed t.walk := by
  have hlinked := h.linked
  refine ⟨hlinked, fun id _ => ?_, fun extra => ?_, ?_⟩
  · rcases hlinked.exists_lineage id with ⟨line, hline⟩
    exact ⟨line, hline, hline.path hlinked⟩
  · exact (hlinked.walkFrom_root extra).1
  · exact (hlinked.walkFrom_root 0).2

end

/-- The second module of the root is there before the one that is nested in
the first, which is then walked before it. -/
theorem linked_and_traversed_youngerFirst :
    ∃ t : ModuleTree, t.Built ∧ t.walk = [(0, 0), (1, 1), (3, 2), (2, 1)] ∧
      t.path 3 = "A::C" ∧ t.Linked ∧ t.Traversed t.walk := by
  have hone : Built (empty.addChild root "A") :=
    Built.empty.addChild (by decide) "A"
  have htwo : Built ((empty.addChild root "A").addChild root "B") :=
    hone.addChild (by decide) "B"
  have hfilled := htwo.change
    (ModuleDecl.keepsLinks_declare (.enum ⟨"E", ["x"]⟩)) 2
  have hthree := hfilled.addChild (show 1 < _ by decide) "C"
  have hbuilt := hthree.addDirective (.include "base.idl")
  have hall := hbuilt.linked_and_traversed
  exact ⟨_, hbuilt, by decide, by decide +kernel, hall.1, hall.2.2.2⟩

end Idl.ModuleTree
