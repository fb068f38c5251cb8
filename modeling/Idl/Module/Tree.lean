import Idl.Declaration

/-!
# The module tree

All modules of a source live in one array, and a module is known by its place
in it.  The first module is the root, which has no name and no parent.
A module is added behind all others and linked with its parent in both
directions, so every parent stands in front of its children.
-/

namespace Idl

/-- A module with everything it declares, each sort in source order.  Parent
and nested modules are given by their places in the tree. -/
structure ModuleDecl where
  name : String
  parent : Option Nat
  children : List Nat
  interfaces : List InterfaceDecl
  typedefs : List Member
  structs : List StructDecl
  constants : List Constant
  enums : List EnumDecl
  unions : List UnionDecl
  deriving DecidableEq, Repr, Inhabited

namespace ModuleDecl

def fresh (name : String) (parent : Option Nat) : ModuleDecl :=
  ⟨name, parent, [], [], [], [], [], [], []⟩

/-- A module is empty when it declares nothing at all, nested modules
included. -/
def isEmpty (m : ModuleDecl) : Bool :=
  m.children.isEmpty && m.interfaces.isEmpty && m.typedefs.isEmpty &&
    m.structs.isEmpty && m.constants.isEmpty && m.enums.isEmpty &&
    m.unions.isEmpty

def declare (m : ModuleDecl) : Declaration → ModuleDecl
  | .interface d => { m with interfaces := m.interfaces ++ [d] }
  | .typedef d => { m with typedefs := m.typedefs ++ [d] }
  | .struct d => { m with structs := m.structs ++ [d] }
  | .constant d => { m with constants := m.constants ++ [d] }
  | .enum d => { m with enums := m.enums ++ [d] }
  | .union d => { m with unions := m.unions ++ [d] }

/-! ## Members of a declaration that is already there -/

def addMember (m : ModuleDecl) (index : Nat) (member : Member) :
    ModuleDecl :=
  { m with
    structs := m.structs.modify index fun d =>
      { d with members := d.members ++ [member] } }

def addEnumerator (m : ModuleDecl) (index : Nat) (name : String) :
    ModuleDecl :=
  { m with
    enums := m.enums.modify index fun d =>
      { d with enumerators := d.enumerators ++ [name] } }

def addMethod (m : ModuleDecl) (index : Nat) (method : Method) :
    ModuleDecl :=
  { m with
    interfaces := m.interfaces.modify index fun d =>
      { d with methods := d.methods ++ [method] } }

def addCase (m : ModuleDecl) (index : Nat) (unionCase : UnionCase) :
    ModuleDecl :=
  { m with
    unions := m.unions.modify index fun d =>
      { d with cases := d.cases ++ [unionCase] } }

end ModuleDecl

/-- The modules of a source, and its directives in source order. -/
structure ModuleTree where
  modules : Array ModuleDecl
  directives : List Directive
  deriving DecidableEq, Repr

namespace ModuleTree

def root : Nat := 0

def empty : ModuleTree := ⟨#[.fresh "" none], []⟩

instance : Inhabited ModuleTree := ⟨empty⟩

def count (t : ModuleTree) : Nat := t.modules.size

/-- The module at a place; behind the last one there are only empty modules
without a name. -/
def get (t : ModuleTree) (id : Nat) : ModuleDecl :=
  t.modules.getD id (.fresh "" none)

def modify (t : ModuleTree) (id : Nat)
    (change : ModuleDecl → ModuleDecl) : ModuleTree :=
  { t with modules := t.modules.modify id change }

/-- Adds a module behind all others and links it with its parent. -/
def addChild (t : ModuleTree) (parent : Nat) (name : String) :
    ModuleTree :=
  let grown := { t with modules := t.modules.push (.fresh name (some parent)) }
  grown.modify parent fun m => { m with children := m.children ++ [t.count] }

def declare (t : ModuleTree) (id : Nat) (d : Declaration) : ModuleTree :=
  t.modify id (·.declare d)

def addDirective (t : ModuleTree) (d : Directive) : ModuleTree :=
  { t with directives := t.directives ++ [d] }

def parent? (t : ModuleTree) (id : Nat) : Option Nat :=
  (t.get id).parent

/-- The places of the modules nested directly in a module, in order. -/
def children (t : ModuleTree) (id : Nat) : List Nat :=
  (t.get id).children

/-- The place of a module as it is shown when modules are inspected. -/
def idText (id : Nat) : String := "ModuleId(" ++ id.repr ++ ")"

end ModuleTree

end Idl
