import Idl.Assembly
import Idl.Proofs.Module.Tree

/-!
# Trees without their texts

Blanking every text of a tree leaves its build: how the modules are linked, how
many declarations of each sort there are and in which order, how many members,
parameters, bases and arguments they have, the directions of the parameters,
and which names and sizes are there at all.

Statements and states of the assembly are blanked in the same way, and a
statement builds what it builds whatever the texts are (`bare_apply`).
-/

namespace Idl

/-- What is left of a text. -/
def blanked (_ : String) : String := ""

/-! ## Declarations -/

namespace TypeRef

mutual
def bare : TypeRef → TypeRef
  | ⟨_, quantity, arguments⟩ => ⟨"", quantity.map blanked, bares arguments⟩
def bares : List TypeRef → List TypeRef
  | [] => []
  | t :: ts => bare t :: bares ts
end

end TypeRef

def Declarator.bare (d : Declarator) : Declarator :=
  ⟨"", d.quantity.map blanked⟩

theorem Declarator.bare_bind (d : Declarator) (t : TypeRef) :
    (d.bind t).bare = d.bare.bind t.bare := by
  rcases d with ⟨name, _ | quantity⟩
  · rfl
  · rcases t with ⟨name, size, arguments⟩
    simp [bind, bare, TypeRef.bare]

def Member.bare (m : Member) : Member := ⟨"", m.type.bare⟩

def Constant.bare (c : Constant) : Constant := ⟨"", c.type.bare, ""⟩

def StructDecl.bare (d : StructDecl) : StructDecl :=
  ⟨"", d.bases.map blanked, d.members.map Member.bare⟩

def EnumDecl.bare (d : EnumDecl) : EnumDecl :=
  ⟨"", d.enumerators.map blanked⟩

def Parameter.bare (p : Parameter) : Parameter :=
  ⟨p.direction, p.type.bare, p.name.map blanked⟩

def Method.bare (m : Method) : Method :=
  ⟨"", m.result.bare, m.parameters.map Parameter.bare⟩

def InterfaceDecl.bare (d : InterfaceDecl) : InterfaceDecl :=
  ⟨"", d.bases.map blanked, d.methods.map Method.bare⟩

def UnionCase.bare (c : UnionCase) : UnionCase :=
  ⟨c.selector.bare, c.type.bare, ""⟩

def UnionDecl.bare (d : UnionDecl) : UnionDecl :=
  ⟨"", d.discriminant.bare, d.cases.map UnionCase.bare⟩

def Declaration.bare : Declaration → Declaration
  | interface d => interface d.bare
  | typedef d => typedef d.bare
  | struct d => struct d.bare
  | constant d => constant d.bare
  | enum d => enum d.bare
  | union d => union d.bare

def Directive.bare : Directive → Directive
  | .define _ value => .define "" (value.map blanked)
  | .include _ => .include ""

/-! ## Modules -/

def ModuleDecl.bare (m : ModuleDecl) : ModuleDecl where
  name := ""
  parent := m.parent
  children := m.children
  interfaces := m.interfaces.map InterfaceDecl.bare
  typedefs := m.typedefs.map Member.bare
  structs := m.structs.map StructDecl.bare
  constants := m.constants.map Constant.bare
  enums := m.enums.map EnumDecl.bare
  unions := m.unions.map UnionDecl.bare

def ModuleTree.bare (t : ModuleTree) : ModuleTree :=
  ⟨t.modules.map ModuleDecl.bare, t.directives.map Directive.bare⟩

/-- Changing an element before or after all of them are mapped. -/
theorem map_modify_of_comm {α β : Type} {f : α → β} {change : α → α}
    {change' : β → β} (h : ∀ x, f (change x) = change' (f x)) (xs : List α)
    (index : Nat) :
    (xs.modify index change).map f = (xs.map f).modify index change' := by
  refine List.ext_getElem? fun i => ?_
  simp only [List.getElem?_map, List.getElem?_modify]
  cases xs[i]? with
  | none => rfl
  | some x => by_cases hindex : index = i <;> simp [hindex, h]

namespace ModuleDecl

variable (m : ModuleDecl)

theorem bare_declare (d : Declaration) :
    (m.declare d).bare = m.bare.declare d.bare := by
  cases d <;> simp [bare, declare, Declaration.bare]

theorem bare_addMember (index : Nat) (member : Member) :
    (m.addMember index member).bare =
      m.bare.addMember index member.bare := by
  simp only [bare, addMember, ModuleDecl.mk.injEq, true_and, and_true]
  exact map_modify_of_comm (fun d => by simp [StructDecl.bare]) _ _

theorem bare_addEnumerator (index : Nat) (name : String) :
    (m.addEnumerator index name).bare = m.bare.addEnumerator index "" := by
  simp only [bare, addEnumerator, ModuleDecl.mk.injEq, true_and, and_true]
  exact map_modify_of_comm (fun d => by simp [EnumDecl.bare, blanked]) _ _

theorem bare_addMethod (index : Nat) (method : Method) :
    (m.addMethod index method).bare =
      m.bare.addMethod index method.bare := by
  simp only [bare, addMethod, ModuleDecl.mk.injEq, true_and, and_true]
  exact map_modify_of_comm (fun d => by simp [InterfaceDecl.bare]) _ _

theorem bare_addCase (index : Nat) (unionCase : UnionCase) :
    (m.addCase index unionCase).bare =
      m.bare.addCase index unionCase.bare := by
  simp only [bare, addCase, ModuleDecl.mk.injEq, true_and]
  exact map_modify_of_comm (fun d => by simp [UnionDecl.bare]) _ _

end ModuleDecl

namespace ModuleTree

variable (t : ModuleTree)

theorem count_bare : t.bare.count = t.count := by
  simp [bare, count]

theorem get_bare (id : Nat) : t.bare.get id = (t.get id).bare := by
  simp only [get, bare, Array.getD_eq_getD_getElem?, Array.getElem?_map]
  cases t.modules[id]? <;> rfl

theorem bare_modify {change : ModuleDecl → ModuleDecl}
    (change' : ModuleDecl → ModuleDecl)
    (h : ∀ m, (change m).bare = change' m.bare) (id : Nat) :
    (t.modify id change).bare = t.bare.modify id change' := by
  refine ext_get (by simp [count_bare]) (fun other hother => ?_) rfl
  rw [count_bare, count_modify] at hother
  rw [get_bare]
  by_cases hsame : other = id
  · subst hsame
    have hbare : other < t.bare.count := by rwa [count_bare]
    rw [get_modify_self hother, get_modify_self hbare, get_bare, h]
  · rw [get_modify_of_ne hsame, get_modify_of_ne hsame, get_bare]

theorem bare_addChild (parent : Nat) (name : String) :
    (t.addChild parent name).bare = t.bare.addChild parent "" := by
  rw [addChild, addChild, bare_modify _ fun m =>
    { m with children := m.children ++ [t.bare.count] }]
  · congr 1
    simp [bare, ModuleDecl.bare, ModuleDecl.fresh]
  · intro m
    rw [count_bare]
    rfl

end ModuleTree

/-! ## Statements and states -/

def Statement.bare : Statement → Statement
  | directive d => directive d.bare
  | declare d => declare d.bare
  | openModule _ _ => openModule "" (.point 0)
  | openStruct _ bases _ => openStruct "" (bases.map blanked) (.point 0)
  | openEnum _ _ => openEnum "" (.point 0)
  | openInterface _ bases _ => openInterface "" (bases.map blanked) (.point 0)
  | openUnion _ discriminant _ => openUnion "" discriminant.bare (.point 0)
  | member m => member m.bare
  | enumerator _ => enumerator ""
  | method m => method m.bare
  | unionCase c => unionCase c.bare
  | close => close
  | skip => skip

/-- The open scope without its name and its site. -/
def Scope.bare (scope : Scope) : Scope := ⟨scope.target, "", .point 0⟩

namespace Assembly

def bare (a : Assembly) : Assembly :=
  ⟨a.tree.bare, a.current, a.scopes.map Scope.bare⟩

variable (a : Assembly)

theorem scopeKind_bare : a.bare.scopeKind = a.scopeKind := by
  rcases a with ⟨tree, current, _ | ⟨scope, scopes⟩⟩ <;> rfl

theorem currentModule_bare : a.bare.currentModule = a.currentModule.bare :=
  a.tree.get_bare a.current

theorem bare_modifyCurrent {change change' : ModuleDecl → ModuleDecl}
    (h : ∀ m, (change m).bare = change' m.bare) :
    (a.modifyCurrent change).bare = a.bare.modifyCurrent change' := by
  simp only [modifyCurrent, bare, a.tree.bare_modify _ h]

theorem bare_declare (d : Declaration) :
    (a.declare d).bare = a.bare.declare d.bare :=
  a.bare_modifyCurrent fun m => m.bare_declare d

theorem bare_openModule (name : String) (site : Span) :
    (a.openModule name site).bare = a.bare.openModule "" (.point 0) := by
  simp only [openModule, bare, ModuleTree.bare_addChild, ModuleTree.count_bare,
    List.map_cons, Scope.bare]

theorem bare_openScope (target : Target) (name : String) (site : Span) :
    (a.openScope target name site).bare =
      a.bare.openScope target "" (.point 0) :=
  rfl

theorem bare_fill {change change' : Target → ModuleDecl → ModuleDecl}
    (h : ∀ target m, (change target m).bare = change' target m.bare) :
    (a.fill change).bare = a.bare.fill change' := by
  rcases a with ⟨tree, current, _ | ⟨scope, scopes⟩⟩
  · rfl
  · exact bare_modifyCurrent _ (h scope.target)

theorem bare_close : a.close.bare = a.bare.close := by
  rcases a with ⟨tree, current, _ | ⟨⟨target, name, site⟩, scopes⟩⟩
  · rfl
  · cases target with
    | module id =>
        simp only [close, bare, List.map_cons, Scope.bare, ModuleTree.parent?,
          ModuleTree.get_bare]
        rfl
    | _ => rfl

/-- What a statement does to a state does not depend on the texts. -/
theorem bare_apply (s : Statement) :
    (a.apply s).bare = a.bare.apply s.bare := by
  cases s with
  | directive d => simp [apply, bare, Statement.bare, ModuleTree.addDirective,
      ModuleTree.bare]
  | declare d => exact a.bare_declare d
  | openModule name site => exact a.bare_openModule name site
  | openStruct | openEnum | openInterface | openUnion =>
      simp only [apply, bare_openScope, bare_declare, Statement.bare,
        currentModule_bare, ModuleDecl.bare, List.length_map]
      rfl
  | member m =>
      simp only [apply, addMember, Statement.bare]
      refine a.bare_fill fun target module => ?_
      cases target with
      | struct index => exact module.bare_addMember index m
      | _ => rfl
  | enumerator name =>
      simp only [apply, addEnumerator, Statement.bare]
      refine a.bare_fill fun target module => ?_
      cases target with
      | enum index => exact module.bare_addEnumerator index name
      | _ => rfl
  | method m =>
      simp only [apply, addMethod, Statement.bare]
      refine a.bare_fill fun target module => ?_
      cases target with
      | interface index => exact module.bare_addMethod index m
      | _ => rfl
  | unionCase c =>
      simp only [apply, addCase, Statement.bare]
      refine a.bare_fill fun target module => ?_
      cases target with
      | union index => exact module.bare_addCase index c
      | _ => rfl
  | close => exact a.bare_close
  | skip => rfl

end Assembly

/-! ## Faults -/

/-- A fault without the words it shows. -/
def Fault.bare : Fault → Fault
  | expected kind production _ => expected kind production ""
  | unexpectedKeyword _ scope => unexpectedKeyword "" scope
  | unknownDirective _ => unknownDirective ""
  | invalidDirection _ => invalidDirection ""
  | expectedCase _ => expectedCase ""
  | expectedSwitch _ => expectedSwitch ""
  | invalidInterface _ => invalidInterface ""
  | endOfInput needed => endOfInput needed
  | unmatchedClose => unmatchedClose
  | unclosedScope scope _ => unclosedScope scope ""

end Idl
