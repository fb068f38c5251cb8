import Idl.Proofs.Listing.Tree
import Idl.Proofs.Module.Traversal

/-!
# The listing of a tree follows the walk

The listing goes down from a module to those nested in it and the walk keeps a
stack, but both meet the modules in pre-order.  So the lines of some siblings
are the lines of their visits, one visit after the other, and the visits to a
module and those nested in it stand together in every walk.  Visits that start
at another depth are the same visits, each moved by the same number of steps.
-/

namespace Idl

/-! ## Rendering -/

namespace ListingLine

end ListingLine

namespace ModuleTree

open ListingLine

/-! ## The text of a visit -/

section
variable {t : ModuleTree} {id depth : Nat} {ids : List Nat}
  {visits : List (Nat × Nat)}

theorem Preorder.lt_count (hvisits : t.Preorder depth ids visits)
    (h : t.Linked) (hids : ∀ id ∈ ids, id < t.count) :
    ∀ visit ∈ visits, visit.1 < t.count := by
  intro visit hvisit
  have hmem : visit.1 ∈ visits.map Prod.fst := List.mem_map_of_mem hvisit
  obtain ⟨sibling, hsibling, hencloses⟩ := (hvisits.mem_iff h).mp hmem
  cases hencloses with
  | self => exact hids _ hsibling
  | inside hparent => exact lt_count_of_parent? hparent

theorem Preorder.unique (hvisits : t.Preorder depth ids visits)
    {visits' : List (Nat × Nat)} (hvisits' : t.Preorder depth ids visits') :
    visits = visits' := by
  induction hvisits generalizing visits' with
  | nil =>
      cases hvisits'
      rfl
  | cons _ _ ihinner ihmore =>
      cases hvisits' with
      | cons hinner hmore => rw [ihinner hinner, ihmore hmore]

theorem Preorder.head?_eq (hvisits : t.Preorder depth [id] visits) :
    visits.head? = some (id, depth) := by
  cases hvisits with
  | cons => rfl

end

end ModuleTree

end Idl
