import Idl.Module.Tree

/-!
# Paths of modules

The path of a module is the names of its enclosing modules and its own, from
the outside in, with the namespace mark between them; the root has the empty
path.  Looking a path up goes down from the root and takes, at each segment,
the first child of that name.  Several modules may share a path, and only the
first can be found by it.
-/

namespace Idl.ModuleTree

/-- The names on the way from the root to a module, in front of the names
`below`.  Parents stand in front of their children, so the way up ends. -/
def segmentsTo (t : ModuleTree) (id : Nat) (below : List String) :
    List String :=
  match t.parent? id with
  | none => below
  | some p =>
    if p < id then
      t.segmentsTo p ((t.get id).name :: below)
    else
      (t.get id).name :: below
termination_by id

def segments (t : ModuleTree) (id : Nat) : List String := t.segmentsTo id []

def path (t : ModuleTree) (id : Nat) : String :=
  String.intercalate "::" (t.segments id)

/-- Cuts a path at every namespace mark, from left to right. -/
def splitPath : List Char → List (List Char)
  | [] => [[]]
  | ':' :: ':' :: cs => [] :: splitPath cs
  | c :: cs =>
    match splitPath cs with
    | [] => [[c]]
    | segment :: rest => (c :: segment) :: rest

def child? (t : ModuleTree) (id : Nat) (name : String) :
    Option Nat :=
  (t.children id).find? fun child => (t.get child).name == name

/-- Goes down from a module along the given names. -/
def descend? (t : ModuleTree) (id : Nat) : List String → Option Nat
  | [] => some id
  | name :: rest =>
    match t.child? id name with
    | none => none
    | some child => t.descend? child rest

def find? (t : ModuleTree) (path : String) : Option Nat :=
  if path = "" then
    some root
  else
    t.descend? root ((splitPath path.toList).map String.ofList)

end Idl.ModuleTree
