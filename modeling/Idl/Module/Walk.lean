import Idl.Module.Tree

/-!
# Walking a module tree

A walk visits every module before the modules nested in it, siblings in their
order, and tells the depth of each.  It keeps the modules still to visit on a
stack.  Every visit takes one module from the tree, so as many steps as there
are modules are enough.
-/

namespace Idl.ModuleTree

/-- At most `steps` visits, the modules still to visit being on the stack. -/
def walkFrom (t : ModuleTree) (steps : Nat) (stack : List (Nat × Nat)) :
    List (Nat × Nat) :=
  match steps, stack with
  | 0, _ => []
  | _, [] => []
  | steps + 1, (id, depth) :: rest =>
    (id, depth) ::
      t.walkFrom steps
        ((t.children id).map (fun child => (child, depth + 1)) ++ rest)

/-- All modules with their depths, the root first at depth zero. -/
def walk (t : ModuleTree) : List (Nat × Nat) :=
  t.walkFrom t.count [(root, 0)]

end Idl.ModuleTree
