import Idl.Module.Tree
import Idl.Statement

/-!
# Assembling the module tree

The tree grows statement by statement.  Besides the tree, the state knows the
module that declarations go to and the scopes that are open, the innermost
first.  A scope refers to what it fills by place: a module by its place in the
tree, any other declaration by its place among those of its sort in the
current module.
-/

namespace Idl

/-- What the statements of a scope fill. -/
inductive Target where
  | module (id : Nat)
  | struct (index : Nat)
  | enum (index : Nat)
  | interface (index : Nat)
  | union (index : Nat)
  deriving DecidableEq, Repr

def Target.kind : Target → ScopeKind
  | module _ => .module
  | struct _ => .struct
  | enum _ => .enum
  | interface _ => .interface
  | union _ => .union

/-- An open scope, with the name of what it fills and the place where that
name was written. -/
structure Scope where
  target : Target
  name : String
  site : Span
  deriving DecidableEq, Repr

structure Assembly where
  tree : ModuleTree
  current : Nat
  scopes : List Scope
  deriving DecidableEq, Repr

namespace Assembly

def start : Assembly := ⟨.empty, ModuleTree.root, []⟩

def scopeKind (a : Assembly) : ScopeKind :=
  match a.scopes with
  | [] => .global
  | scope :: _ => scope.target.kind

/-- The module that declarations go to. -/
def currentModule (a : Assembly) : ModuleDecl := a.tree.get a.current

def modifyCurrent (a : Assembly) (change : ModuleDecl → ModuleDecl) :
    Assembly :=
  { a with tree := a.tree.modify a.current change }

def declare (a : Assembly) (d : Declaration) : Assembly :=
  a.modifyCurrent (·.declare d)

def openScope (a : Assembly) (target : Target) (name : String)
    (site : Span) : Assembly :=
  { a with scopes := ⟨target, name, site⟩ :: a.scopes }

/-- Adds a module to the current one and makes it the current one. -/
def openModule (a : Assembly) (name : String) (site : Span) : Assembly :=
  { tree := a.tree.addChild a.current name
    current := a.tree.count
    scopes := ⟨.module a.tree.count, name, site⟩ :: a.scopes }

/-- Closes the innermost scope.  Behind a module its parent is current
again. -/
def close (a : Assembly) : Assembly :=
  match a.scopes with
  | [] => a
  | scope :: scopes =>
    match scope.target with
    | .module id =>
      { a with
        current := (a.tree.parent? id).getD ModuleTree.root
        scopes := scopes }
    | _ => { a with scopes := scopes }

def fill (a : Assembly) (change : Target → ModuleDecl → ModuleDecl) :
    Assembly :=
  match a.scopes with
  | [] => a
  | scope :: _ => a.modifyCurrent (change scope.target)

def addMember (a : Assembly) (m : Member) : Assembly :=
  a.fill fun
    | .struct index => (·.addMember index m)
    | _ => id

def addEnumerator (a : Assembly) (name : String) : Assembly :=
  a.fill fun
    | .enum index => (·.addEnumerator index name)
    | _ => id

def addMethod (a : Assembly) (m : Method) : Assembly :=
  a.fill fun
    | .interface index => (·.addMethod index m)
    | _ => id

def addCase (a : Assembly) (c : UnionCase) : Assembly :=
  a.fill fun
    | .union index => (·.addCase index c)
    | _ => id

def apply (a : Assembly) : Statement → Assembly
  | .directive d => { a with tree := a.tree.addDirective d }
  | .declare d => a.declare d
  | .openModule name site => a.openModule name site
  | .openStruct name bases site =>
    (a.declare (.struct ⟨name, bases, []⟩)).openScope
      (.struct a.currentModule.structs.length) name site
  | .openEnum name site =>
    (a.declare (.enum ⟨name, []⟩)).openScope
      (.enum a.currentModule.enums.length) name site
  | .openInterface name bases site =>
    (a.declare (.interface ⟨name, bases, []⟩)).openScope
      (.interface a.currentModule.interfaces.length) name site
  | .openUnion name discriminant site =>
    (a.declare (.union ⟨name, discriminant, []⟩)).openScope
      (.union a.currentModule.unions.length) name site
  | .member m => a.addMember m
  | .enumerator name => a.addEnumerator name
  | .method m => a.addMethod m
  | .unionCase c => a.addCase c
  | .close => a.close
  | .skip => a

end Assembly

end Idl
