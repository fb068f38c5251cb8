import Idl.Proofs.Assembly.Scopes
import Mathlib.Algebra.Group.Nat.Defs

/-!
# The assembly with guards

The assembly is total: it takes the root where a module has no parent, changes
nothing where an index is out of range, and reads a forward declaration as
complete.  The guarded assembly below takes none of these ways out.  It keeps
the outermost scope as a frame at the bottom of the stack, opens and closes a
scope for a forward declaration, and has no result where a number does not
fit in 32 bits, an index is out of range, a parent is missing or the outermost
frame would be taken away.

In every state of a run the guarded assembly has a result, and it is the one
of the assembly.
-/

namespace Idl

inductive Frame where
  | outermost
  | inner (scope : Scope)
  deriving DecidableEq, Repr

def Frame.kind : Frame → ScopeKind
  | outermost => .global
  | inner scope => scope.target.kind

/-- The state with the whole stack, the innermost frame first. -/
structure Guarded where
  tree : ModuleTree
  current : Nat
  frames : List Frame
  deriving DecidableEq, Repr

namespace Guarded

def start : Guarded := ⟨.empty, ModuleTree.root, [.outermost]⟩

def topKind? (g : Guarded) : Option ScopeKind := g.frames.head?.map Frame.kind

def modify? (g : Guarded) (change : ModuleDecl → Option ModuleDecl) :
    Option Guarded :=
  if g.current < g.tree.count then
    (change (g.tree.get g.current)).map fun m =>
      { g with tree := g.tree.modify g.current fun _ => m }
  else
    none

/-- Declares and opens a frame for what is then the last of its sort. -/
def open? (g : Guarded) (d : Declaration) (last : ModuleDecl → Target)
    (name : String) (site : Span) : Option Guarded :=
  (g.modify? fun m => some (m.declare d)).map fun g' =>
    { g' with
      frames := .inner ⟨last (g'.tree.get g'.current), name, site⟩ ::
        g'.frames }

def openInterface? (g : Guarded) (d : InterfaceDecl) (site : Span) :
    Option Guarded :=
  g.open? (.interface d) (fun m => .interface (m.interfaces.length - 1))
    d.name site

/-- Adds a module, whose number must fit in 32 bits. -/
def openModule? (g : Guarded) (name : String) (site : Span) :
    Option Guarded :=
  if g.current < g.tree.count ∧ g.tree.count < 2 ^ 32 then
    some ⟨g.tree.addChild g.current name, g.tree.count,
      .inner ⟨.module g.tree.count, name, site⟩ :: g.frames⟩
  else
    none

/-- Takes the innermost frame away, which must not be the only one. -/
def pop? (g : Guarded) : Option Guarded :=
  match g.frames with
  | .inner ⟨.module id, _, _⟩ :: below :: frames =>
    if id < g.tree.count then
      (g.tree.parent? id).map fun parent =>
        { g with current := parent, frames := below :: frames }
    else
      none
  | _ :: below :: frames => some { g with frames := below :: frames }
  | _ => none

/-- Changes the declaration that the innermost frame refers to. -/
def fill? (g : Guarded)
    (change : Target → ModuleDecl → Option ModuleDecl) : Option Guarded :=
  match g.frames with
  | .inner scope :: _ => g.modify? (change scope.target)
  | _ => none

def addMember? (m : Member) : Target → ModuleDecl → Option ModuleDecl
  | .struct index, d =>
    if index < d.structs.length then some (d.addMember index m) else none
  | _, _ => none

def addEnumerator? (name : String) : Target → ModuleDecl → Option ModuleDecl
  | .enum index, d =>
    if index < d.enums.length then some (d.addEnumerator index name) else none
  | _, _ => none

def addMethod? (m : Method) : Target → ModuleDecl → Option ModuleDecl
  | .interface index, d =>
    if index < d.interfaces.length then some (d.addMethod index m) else none
  | _, _ => none

def addCase? (c : UnionCase) : Target → ModuleDecl → Option ModuleDecl
  | .union index, d =>
    if index < d.unions.length then some (d.addCase index c) else none
  | _, _ => none

/-- What a statement does to the state, if it may.  A forward declaration
opens a scope for the interface and closes it at once. -/
def step? (g : Guarded) : Statement → Option Guarded
  | .directive d => some { g with tree := g.tree.addDirective d }
  | .declare (.interface d) => (g.openInterface? d (.point 0)).bind pop?
  | .declare d => g.modify? fun m => some (m.declare d)
  | .openModule name site => g.openModule? name site
  | .openStruct name bases site =>
    g.open? (.struct ⟨name, bases, []⟩)
      (fun m => .struct (m.structs.length - 1)) name site
  | .openEnum name site =>
    g.open? (.enum ⟨name, []⟩) (fun m => .enum (m.enums.length - 1)) name site
  | .openInterface name bases site =>
    g.openInterface? ⟨name, bases, []⟩ site
  | .openUnion name discriminant site =>
    g.open? (.union ⟨name, discriminant, []⟩)
      (fun m => .union (m.unions.length - 1)) name site
  | .member m => g.fill? (addMember? m)
  | .enumerator name => g.fill? (addEnumerator? name)
  | .method m => g.fill? (addMethod? m)
  | .unionCase c => g.fill? (addCase? c)
  | .close => g.pop?
  | .skip => some g

end Guarded

def Assembly.guarded (a : Assembly) : Guarded :=
  ⟨a.tree, a.current, a.scopes.map .inner ++ [.outermost]⟩

theorem Assembly.guarded_start : Assembly.start.guarded = .start := rfl

theorem Assembly.topKind?_guarded (a : Assembly) :
    a.guarded.topKind? = some a.scopeKind := by
  unfold guarded Guarded.topKind? scopeKind
  cases a.scopes <;> rfl

/-! ## Agreement -/

section
variable {a : Assembly}

theorem modify?_guarded (hcurrent : a.current < a.tree.count)
    {change : ModuleDecl → Option ModuleDecl} {f : ModuleDecl → ModuleDecl}
    (hchange : change a.currentModule = some (f a.currentModule)) :
    a.guarded.modify? change = some (a.modifyCurrent f).guarded := by
  have hget : change (a.tree.get a.current) = some (f (a.tree.get a.current)) :=
    hchange
  have hmodify : (a.tree.modify a.current fun _ => f (a.tree.get a.current)) =
      a.tree.modify a.current f := ModuleTree.modify_congr rfl
  simp only [Guarded.modify?, Assembly.guarded, if_pos hcurrent, hget,
    Option.map_some, hmodify, Assembly.modifyCurrent]

theorem modify?_guarded_declare (hcurrent : a.current < a.tree.count)
    (d : Declaration) :
    a.guarded.modify? (fun m => some (m.declare d)) =
      some (a.declare d).guarded :=
  modify?_guarded hcurrent rfl

theorem open?_guarded (hcurrent : a.current < a.tree.count) {d : Declaration}
    {last : ModuleDecl → Target} {target : Target}
    (hlast : last (a.currentModule.declare d) = target) (name : String)
    (site : Span) :
    a.guarded.open? d last name site =
      some ((a.declare d).openScope target name site).guarded := by
  have hdeclare := modify?_guarded_declare hcurrent d
  have hget : (a.declare d).tree.get a.current = a.currentModule.declare d :=
    Assembly.currentModule_modifyCurrent hcurrent _
  rw [Guarded.open?, hdeclare, Option.map_some]
  change some (Guarded.mk _ _ (.inner ⟨last ((a.declare d).tree.get a.current),
    name, site⟩ :: _)) = _
  rw [hget, hlast]
  rfl

theorem fill?_guarded (hcurrent : a.current < a.tree.count) {scope : Scope}
    {scopes : List Scope} (hscopes : a.scopes = scope :: scopes)
    {change : Target → ModuleDecl → Option ModuleDecl}
    {f : ModuleDecl → ModuleDecl}
    (hchange : change scope.target a.currentModule =
      some (f a.currentModule)) :
    a.guarded.fill? change = some (a.modifyCurrent f).guarded := by
  have hframes : a.guarded.frames =
      .inner scope :: (scopes.map .inner ++ [.outermost]) := by
    rw [Assembly.guarded, hscopes]
    rfl
  rw [Guarded.fill?, hframes]
  exact modify?_guarded hcurrent hchange

theorem length_concat_sub_one {α : Type} (xs : List α) (x : α) :
    (xs ++ [x]).length - 1 = xs.length := by
  simp

theorem frames_below (scopes : List Scope) :
    ∃ below frames, scopes.map Frame.inner ++ [.outermost] = below :: frames := by
  cases scopes with
  | nil => exact ⟨_, _, rfl⟩
  | cons scope scopes => exact ⟨_, _, rfl⟩

theorem pop?_guarded_module {id parent : Nat} {name : String} {site : Span}
    {scopes : List Scope}
    (hscopes : a.scopes = ⟨.module id, name, site⟩ :: scopes)
    (hid : id < a.tree.count) (hparent : a.tree.parent? id = some parent) :
    a.guarded.pop? = some (a.apply .close).guarded := by
  obtain ⟨below, frames, hbelow⟩ := frames_below scopes
  rw [apply_closeModule hscopes hparent]
  simp only [Guarded.pop?, Assembly.guarded, hscopes, List.map_cons,
    List.cons_append, hbelow, if_pos hid, hparent, Option.map_some]

theorem pop?_guarded_filled {scope : Scope} {scopes : List Scope}
    (hscopes : a.scopes = scope :: scopes)
    (hfills : FillsLast a.currentModule scope) :
    a.guarded.pop? = some (a.apply .close).guarded := by
  obtain ⟨below, frames, hbelow⟩ := frames_below scopes
  rw [apply_closeFilled hscopes hfills]
  cases hfills <;>
    simp only [Guarded.pop?, Assembly.guarded, hscopes, List.map_cons,
      List.cons_append, hbelow]

theorem forward_guarded (hcurrent : a.current < a.tree.count)
    (d : InterfaceDecl) (site : Span) :
    (a.guarded.openInterface? d site).bind Guarded.pop? =
      some (a.declare (.interface d)).guarded := by
  obtain ⟨below, frames, hbelow⟩ := frames_below a.scopes
  have hopen : a.guarded.openInterface? d site =
      some ((a.declare (.interface d)).openScope
        (.interface a.currentModule.interfaces.length) d.name site).guarded := by
    have hlast := length_concat_sub_one a.currentModule.interfaces d
    exact open?_guarded hcurrent (congrArg Target.interface hlast) d.name site
  rw [hopen]
  have hscopes : (a.declare (.interface d)).scopes = a.scopes := rfl
  simp only [Option.bind_some, Guarded.pop?, Assembly.guarded,
    Assembly.openScope, List.map_cons, List.cons_append, hscopes, hbelow]

theorem declare_guarded (hcurrent : a.current < a.tree.count)
    (d : Declaration) :
    a.guarded.step? (.declare d) = some (a.declare d).guarded := by
  cases d with
  | interface d => exact forward_guarded hcurrent d (.point 0)
  | _ => exact modify?_guarded_declare hcurrent _

/-- The guarded assembly does what the assembly does. -/
theorem Move.step?_guarded (hcurrent : a.current < a.tree.count)
    (hcount : a.tree.count < 2 ^ 32) {s : Statement} (h : Move a s) :
    a.guarded.step? s = some (a.apply s).guarded := by
  cases h with
  | directive => rfl
  | skip => rfl
  | declare => exact declare_guarded hcurrent _
  | openModule =>
      exact if_pos ⟨hcurrent, hcount⟩
  | @openStruct name bases site =>
      have hlast := length_concat_sub_one a.currentModule.structs
      simp only [Guarded.step?, Assembly.apply]
      exact open?_guarded hcurrent (congrArg Target.struct (hlast _)) name site
  | @openEnum name site =>
      have hlast := length_concat_sub_one a.currentModule.enums
      simp only [Guarded.step?, Assembly.apply]
      exact open?_guarded hcurrent (congrArg Target.enum (hlast _)) name site
  | @openInterface name bases site =>
      have hlast := length_concat_sub_one a.currentModule.interfaces
      simp only [Guarded.step?, Guarded.openInterface?, Assembly.apply]
      exact open?_guarded hcurrent (congrArg Target.interface (hlast _)) name site
  | @openUnion name discriminant site =>
      have hlast := length_concat_sub_one a.currentModule.unions
      simp only [Guarded.step?, Assembly.apply]
      exact open?_guarded hcurrent (congrArg Target.union (hlast _)) name site
  | member hscopes _ hfills =>
      cases hfills with
      | struct hlast hindex =>
          rw [apply_member hscopes]
          refine fill?_guarded hcurrent hscopes (if_pos ?_)
          simp [hlast, ← hindex]
  | enumerator hscopes _ hfills =>
      cases hfills with
      | enum hlast hindex =>
          rw [apply_enumerator hscopes]
          refine fill?_guarded hcurrent hscopes (if_pos ?_)
          simp [hlast, ← hindex]
  | method hscopes _ hfills =>
      cases hfills with
      | interface hlast hindex =>
          rw [apply_method hscopes]
          refine fill?_guarded hcurrent hscopes (if_pos ?_)
          simp [hlast, ← hindex]
  | unionCase hscopes _ hfills =>
      cases hfills with
      | union hlast hindex =>
          rw [apply_unionCase hscopes]
          refine fill?_guarded hcurrent hscopes (if_pos ?_)
          simp [hlast, ← hindex]
  | closeModule hscopes _ hparent =>
      exact pop?_guarded_module hscopes hcurrent hparent
  | closeFilled hscopes _ hfills => exact pop?_guarded_filled hscopes hfills

end

/-- In every state of a run the scopes are in order, and whatever is read next
the guarded assembly does with it what the assembly does. -/
theorem reached_wellScoped_and_guarded (ts : List Token)
    (hlength : ts.length < 2 ^ 32) (a : Assembly) (rest : List Token)
    (h : Reached ts a rest) :
    WellScoped a ∧ a.guarded.topKind? = some a.scopeKind ∧
      ∀ t us s rest', rest = t :: us →
        readStatement a.scopeKind t us = .ok (s, rest') →
          a.guarded.step? s = some (a.apply s).guarded := by
  have hwell := h.wellScoped
  refine ⟨hwell, a.topKind?_guarded, ?_⟩
  rintro t us s rest' rfl hread
  have hcount : a.tree.count < 2 ^ 32 := by
    have hle := h.count_le
    rw [List.length_cons] at hle
    omega
  exact (move_of_readStatement hwell hread).step?_guarded hwell.current_lt
    hcount

/-- The tokens of an enumeration in a module, up to its first enumerator. -/
def enumInModule : List Token :=
  [⟨.identifier, "module", ⟨0, 6⟩⟩, ⟨.identifier, "A", ⟨7, 8⟩⟩,
    ⟨.openBrace, "", ⟨8, 9⟩⟩, ⟨.identifier, "enum", ⟨9, 13⟩⟩,
    ⟨.identifier, "B", ⟨14, 15⟩⟩, ⟨.openBrace, "", ⟨15, 16⟩⟩,
    ⟨.identifier, "X", ⟨16, 17⟩⟩]

def insideEnum : Assembly :=
  (Assembly.start.apply (.openModule "A" ⟨7, 8⟩)).apply
    (.openEnum "B" ⟨14, 15⟩)

theorem wellScoped_and_guarded_insideEnum :
    WellScoped insideEnum ∧ insideEnum.guarded.topKind? = some .enum ∧
      insideEnum.guarded.step? (.enumerator "X") =
        some (insideEnum.apply (.enumerator "X")).guarded := by
  have hmodule : Reached enumInModule
      (Assembly.start.apply (.openModule "A" ⟨7, 8⟩)) (enumInModule.drop 3) :=
    .step .start (by decide +kernel)
  have henum : Reached enumInModule insideEnum (enumInModule.drop 6) :=
    .step hmodule (by decide +kernel)
  obtain ⟨hwell, hkind, happly⟩ :=
    reached_wellScoped_and_guarded enumInModule (by decide) insideEnum _ henum
  exact ⟨hwell, hkind, happly _ _ _ [] rfl (by decide +kernel)⟩

end Idl
