import Idl.Proofs.Grammar.Bodies

/-!
# The scopes of a run

The stack of scopes, the current module, the links between the modules and the
declarations of the current module are changed one at a time and belong
together all the same.  `WellScoped` says how: below at most one declaration
in braces stand modules, each nested in the one below, and the innermost is
current.

A statement is only ever applied in a scope that it fits, and `Move` lists the
statements that fit together with what the invariant gives about the state.
Whatever is to be shown of every state of a run is shown along the moves.
-/

namespace Idl

/-- The states between the statements of a run, each with the tokens that are
still to be read. -/
inductive Reached (ts : List Token) : Assembly → List Token → Prop where
  | start : Reached ts .start ts
  | step {a : Assembly} {t : Token} {us rest : List Token} {s : Statement}
      (h : Reached ts a (t :: us))
      (hread : readStatement a.scopeKind t us = .ok (s, rest)) :
      Reached ts (a.apply s) rest

theorem Reached.run_eq {ts rest : List Token} {a : Assembly}
    (h : Reached ts a rest) : Assembly.start.run ts = a.run rest := by
  induction h with
  | start => rfl
  | step _ hread ih =>
      rw [ih, Assembly.run_cons, hread]

/-- A run that succeeds reaches its end. -/
theorem Reached.of_run {ts rest : List Token} {a fin : Assembly}
    (hreached : Reached ts a rest)
    (h : a.run rest = .ok fin) : Reached ts fin [] := by
  induction a, rest using Assembly.run.induct with
  | case1 a =>
      rw [Assembly.run_nil] at h
      cases h
      exact hreached
  | case2 a t us failure hread =>
      rw [Assembly.run_cons, hread] at h
      cases h
  | case3 a t us s rest hread hlt ih =>
      rw [Assembly.run_cons, hread] at h
      exact ih (hreached.step hread) h

/-! ## The invariant -/

/-- Scopes of modules, each nested in the one below, and the module that is
innermost. -/
inductive Nested (t : ModuleTree) : List Scope → Nat → Prop where
  | outermost : Nested t [] ModuleTree.root
  | module {scopes : List Scope} {id parent : Nat} {name : String}
      {site : Span} (hbelow : Nested t scopes parent) (hid : id < t.count)
      (hparent : t.parent? id = some parent) (hname : (t.get id).name = name) :
      Nested t (⟨.module id, name, site⟩ :: scopes) id

/-- The scope fills the last declaration of its sort in the module, and bears
its name. -/
inductive FillsLast (m : ModuleDecl) : Scope → Prop where
  | struct {ds : List StructDecl} {d : StructDecl} {index : Nat}
      {name : String} {site : Span} (hlast : m.structs = ds ++ [d])
      (hindex : ds.length = index) (hname : d.name = name) :
      FillsLast m ⟨.struct index, name, site⟩
  | enum {ds : List EnumDecl} {d : EnumDecl} {index : Nat}
      {name : String} {site : Span} (hlast : m.enums = ds ++ [d])
      (hindex : ds.length = index) (hname : d.name = name) :
      FillsLast m ⟨.enum index, name, site⟩
  | interface {ds : List InterfaceDecl} {d : InterfaceDecl} {index : Nat}
      {name : String} {site : Span} (hlast : m.interfaces = ds ++ [d])
      (hindex : ds.length = index) (hname : d.name = name) :
      FillsLast m ⟨.interface index, name, site⟩
  | union {ds : List UnionDecl} {d : UnionDecl} {index : Nat}
      {name : String} {site : Span} (hlast : m.unions = ds ++ [d])
      (hindex : ds.length = index) (hname : d.name = name) :
      FillsLast m ⟨.union index, name, site⟩

inductive Topped (a : Assembly) : Prop where
  | plain (hscopes : Nested a.tree a.scopes a.current)
  | filling {scope : Scope} {scopes : List Scope}
      (hscopes : a.scopes = scope :: scopes)
      (hbelow : Nested a.tree scopes a.current)
      (hfills : FillsLast a.currentModule scope)

structure WellScoped (a : Assembly) : Prop where
  count_pos : 0 < a.tree.count
  topped : Topped a

theorem Nested.lt_count {t : ModuleTree} {scopes : List Scope} {id : Nat}
    (h : Nested t scopes id) (hpos : 0 < t.count) : id < t.count := by
  cases h with
  | outermost => exact hpos
  | module _ hid => exact hid

theorem Nested.mono {t u : ModuleTree} {scopes : List Scope} {id : Nat}
    (hextends : t.Extends u) (h : Nested t scopes id) : Nested u scopes id := by
  induction h with
  | outermost => exact .outermost
  | module _ hid hparent hname ih =>
      refine .module ih (Nat.lt_of_lt_of_le hid hextends.count_le) ?_ ?_
      · rw [hextends.parent? _ hid, hparent]
      · rw [hextends.name _ hid, hname]

theorem WellScoped.current_lt {a : Assembly} (h : WellScoped a) :
    a.current < a.tree.count := by
  rcases h with ⟨hpos, hscopes | ⟨-, hbelow, -⟩⟩
  · exact hscopes.lt_count hpos
  · exact hbelow.lt_count hpos

theorem wellScoped_start : WellScoped .start :=
  ⟨by decide, .plain .outermost⟩

/-! ## What a statement finds -/

/-- A statement that fits the scope it stands in, and how the state looks
there. -/
inductive Move (a : Assembly) : Statement → Prop where
  | directive {d : Directive} : Move a (.directive d)
  | skip : Move a .skip
  | declare {d : Declaration} (hscopes : Nested a.tree a.scopes a.current) :
      Move a (.declare d)
  | openModule {name : String} {site : Span}
      (hscopes : Nested a.tree a.scopes a.current) :
      Move a (.openModule name site)
  | openStruct {name : String} {bases : List String} {site : Span}
      (hscopes : Nested a.tree a.scopes a.current) :
      Move a (.openStruct name bases site)
  | openEnum {name : String} {site : Span}
      (hscopes : Nested a.tree a.scopes a.current) :
      Move a (.openEnum name site)
  | openInterface {name : String} {bases : List String} {site : Span}
      (hscopes : Nested a.tree a.scopes a.current) :
      Move a (.openInterface name bases site)
  | openUnion {name : String} {discriminant : TypeRef} {site : Span}
      (hscopes : Nested a.tree a.scopes a.current) :
      Move a (.openUnion name discriminant site)
  | member {m : Member} {index : Nat} {name : String} {site : Span}
      {scopes : List Scope}
      (hscopes : a.scopes = ⟨.struct index, name, site⟩ :: scopes)
      (hbelow : Nested a.tree scopes a.current)
      (hfills : FillsLast a.currentModule ⟨.struct index, name, site⟩) :
      Move a (.member m)
  | enumerator {enumerator : String} {index : Nat} {name : String}
      {site : Span} {scopes : List Scope}
      (hscopes : a.scopes = ⟨.enum index, name, site⟩ :: scopes)
      (hbelow : Nested a.tree scopes a.current)
      (hfills : FillsLast a.currentModule ⟨.enum index, name, site⟩) :
      Move a (.enumerator enumerator)
  | method {m : Method} {index : Nat} {name : String} {site : Span}
      {scopes : List Scope}
      (hscopes : a.scopes = ⟨.interface index, name, site⟩ :: scopes)
      (hbelow : Nested a.tree scopes a.current)
      (hfills : FillsLast a.currentModule ⟨.interface index, name, site⟩) :
      Move a (.method m)
  | unionCase {c : UnionCase} {index : Nat} {name : String} {site : Span}
      {scopes : List Scope}
      (hscopes : a.scopes = ⟨.union index, name, site⟩ :: scopes)
      (hbelow : Nested a.tree scopes a.current)
      (hfills : FillsLast a.currentModule ⟨.union index, name, site⟩) :
      Move a (.unionCase c)
  | closeModule {name : String} {site : Span} {scopes : List Scope}
      {parent : Nat}
      (hscopes : a.scopes = ⟨.module a.current, name, site⟩ :: scopes)
      (hbelow : Nested a.tree scopes parent)
      (hparent : a.tree.parent? a.current = some parent) : Move a .close
  | closeFilled {scope : Scope} {scopes : List Scope}
      (hscopes : a.scopes = scope :: scopes)
      (hbelow : Nested a.tree scopes a.current)
      (hfills : FillsLast a.currentModule scope) : Move a .close

theorem WellScoped.nested {a : Assembly} (h : WellScoped a)
    (hkind : a.scopeKind = .global ∨ a.scopeKind = .module) :
    Nested a.tree a.scopes a.current := by
  rcases h with ⟨-, hscopes | ⟨hscopes, hbelow, hfills⟩⟩
  · exact hscopes
  · unfold Assembly.scopeKind at hkind
    rw [hscopes] at hkind
    cases hfills <;> simp [Target.kind] at hkind

theorem WellScoped.filling {a : Assembly} (h : WellScoped a)
    {kind : ScopeKind} (hkind : a.scopeKind = kind)
    (hglobal : kind ≠ .global) (hmodule : kind ≠ .module) :
    ∃ scope scopes, a.scopes = scope :: scopes ∧ scope.target.kind = kind ∧
      Nested a.tree scopes a.current ∧ FillsLast a.currentModule scope := by
  rcases h with ⟨-, hscopes | ⟨hscopes, hbelow, hfills⟩⟩
  · rcases a with ⟨tree, current, scopes⟩
    change Nested tree scopes current at hscopes
    cases hscopes with
    | outermost => exact absurd hkind.symm hglobal
    | module => exact absurd hkind.symm hmodule
  · refine ⟨_, _, hscopes, ?_, hbelow, hfills⟩
    rw [← hkind, Assembly.scopeKind, hscopes]

theorem move_of_worded {a : Assembly} (h : WellScoped a) {s : Statement}
    {ts rest : List Token} (hworded : Grammar.Worded a.scopeKind s ts rest) :
    Move a s := by
  generalize hkind : a.scopeKind = kind at hworded
  cases hworded with
  | declaring hscope _ hstated =>
      have hscopes := h.nested (by rwa [hkind])
      cases hstated with
      | module => exact .openModule hscopes
      | typedef => exact .declare hscopes
      | struct => exact .openStruct hscopes
      | constant => exact .declare hscopes
      | enum => exact .openEnum hscopes
      | forward => exact .declare hscopes
      | interface => exact .openInterface hscopes
      | union => exact .openUnion hscopes
  | member =>
      obtain ⟨_, _, hscopes, htarget, hbelow, hfills⟩ :=
        h.filling hkind (by decide) (by decide)
      cases id hfills with
      | struct => exact .member hscopes hbelow hfills
      | _ => cases htarget
  | enumerator =>
      obtain ⟨_, _, hscopes, htarget, hbelow, hfills⟩ :=
        h.filling hkind (by decide) (by decide)
      cases id hfills with
      | enum => exact .enumerator hscopes hbelow hfills
      | _ => cases htarget
  | method =>
      obtain ⟨_, _, hscopes, htarget, hbelow, hfills⟩ :=
        h.filling hkind (by decide) (by decide)
      cases id hfills with
      | interface => exact .method hscopes hbelow hfills
      | _ => cases htarget
  | unionCase =>
      obtain ⟨_, _, hscopes, htarget, hbelow, hfills⟩ :=
        h.filling hkind (by decide) (by decide)
      cases id hfills with
      | union => exact .unionCase hscopes hbelow hfills
      | _ => cases htarget

theorem move_close {a : Assembly} (h : WellScoped a)
    (hkind : a.scopeKind ≠ .global) : Move a .close := by
  by_cases hmodule : a.scopeKind = .module
  · rcases a with ⟨tree, current, scopes⟩
    have hnested : Nested tree scopes current := h.nested (.inr hmodule)
    cases hnested with
    | outermost => exact absurd rfl hkind
    | module hbelow _ hparent => exact .closeModule rfl hbelow hparent
  · obtain ⟨_, _, hscopes, -, hbelow, hfills⟩ := h.filling rfl hkind hmodule
    exact .closeFilled hscopes hbelow hfills

theorem move_of_readStatement {a : Assembly} (h : WellScoped a) {t : Token}
    {us rest : List Token} {s : Statement}
    (hread : readStatement a.scopeKind t us = .ok (s, rest)) : Move a s := by
  cases Grammar.said_of_readStatement hread with
  | directive => exact .directive
  | skip => exact .skip
  | close hscope => exact move_close h hscope
  | worded hworded => exact move_of_worded h hworded

/-! ## The invariant is kept -/

theorem Assembly.currentModule_modifyCurrent {a : Assembly}
    (h : a.current < a.tree.count) (f : ModuleDecl → ModuleDecl) :
    (a.modifyCurrent f).currentModule = f a.currentModule :=
  ModuleTree.get_modify_self h

theorem Nested.modifyCurrent {a : Assembly} {scopes : List Scope}
    (h : Nested a.tree scopes a.current) {f : ModuleDecl → ModuleDecl}
    (hparent : ∀ m, (f m).parent = m.parent)
    (hname : ∀ m, (f m).name = m.name) :
    Nested (a.modifyCurrent f).tree scopes (a.modifyCurrent f).current :=
  h.mono (ModuleTree.extends_modify hparent hname)

theorem Nested.declare {a : Assembly} {scopes : List Scope}
    (h : Nested a.tree scopes a.current) (d : Declaration) :
    Nested (a.declare d).tree scopes (a.declare d).current :=
  h.mono (ModuleTree.extends_declare d)

theorem topped_openScope {a : Assembly} (hcurrent : a.current < a.tree.count)
    (hscopes : Nested a.tree a.scopes a.current) {d : Declaration}
    {target : Target} {name : String} {site : Span}
    (hfills : FillsLast (a.currentModule.declare d) ⟨target, name, site⟩) :
    Topped ((a.declare d).openScope target name site) := by
  refine .filling rfl (hscopes.declare d) ?_
  change FillsLast (a.declare d).currentModule _
  rwa [Assembly.declare, Assembly.currentModule_modifyCurrent hcurrent]

theorem topped_modifyCurrent {a : Assembly}
    (hcurrent : a.current < a.tree.count) {scope : Scope}
    {scopes : List Scope} (hscopes : a.scopes = scope :: scopes)
    (hbelow : Nested a.tree scopes a.current) {f : ModuleDecl → ModuleDecl}
    (hparent : ∀ m, (f m).parent = m.parent)
    (hname : ∀ m, (f m).name = m.name)
    (hfills : FillsLast (f a.currentModule) scope) :
    Topped (a.modifyCurrent f) := by
  refine .filling hscopes (hbelow.modifyCurrent hparent hname) ?_
  rwa [Assembly.currentModule_modifyCurrent hcurrent]

theorem apply_member {a : Assembly} {index : Nat} {name : String} {site : Span}
    {scopes : List Scope}
    (hscopes : a.scopes = ⟨.struct index, name, site⟩ :: scopes) (m : Member) :
    a.apply (.member m) = a.modifyCurrent (·.addMember index m) := by
  simp only [Assembly.apply, Assembly.addMember, Assembly.fill, hscopes]

theorem apply_enumerator {a : Assembly} {index : Nat} {name : String}
    {site : Span} {scopes : List Scope}
    (hscopes : a.scopes = ⟨.enum index, name, site⟩ :: scopes) (x : String) :
    a.apply (.enumerator x) = a.modifyCurrent (·.addEnumerator index x) := by
  simp only [Assembly.apply, Assembly.addEnumerator, Assembly.fill, hscopes]

theorem apply_method {a : Assembly} {index : Nat} {name : String} {site : Span}
    {scopes : List Scope}
    (hscopes : a.scopes = ⟨.interface index, name, site⟩ :: scopes)
    (m : Method) :
    a.apply (.method m) = a.modifyCurrent (·.addMethod index m) := by
  simp only [Assembly.apply, Assembly.addMethod, Assembly.fill, hscopes]

theorem apply_unionCase {a : Assembly} {index : Nat} {name : String}
    {site : Span} {scopes : List Scope}
    (hscopes : a.scopes = ⟨.union index, name, site⟩ :: scopes)
    (c : UnionCase) :
    a.apply (.unionCase c) = a.modifyCurrent (·.addCase index c) := by
  simp only [Assembly.apply, Assembly.addCase, Assembly.fill, hscopes]

theorem apply_closeModule {a : Assembly} {id parent : Nat} {name : String}
    {site : Span} {scopes : List Scope}
    (hscopes : a.scopes = ⟨.module id, name, site⟩ :: scopes)
    (hparent : a.tree.parent? id = some parent) :
    a.apply .close = { a with current := parent, scopes := scopes } := by
  simp only [Assembly.apply, Assembly.close, hscopes, hparent,
    Option.getD_some]

theorem apply_closeFilled {a : Assembly} {scope : Scope} {scopes : List Scope}
    (hscopes : a.scopes = scope :: scopes)
    (hfills : FillsLast a.currentModule scope) :
    a.apply .close = { a with scopes := scopes } := by
  cases hfills <;> simp only [Assembly.apply, Assembly.close, hscopes]

section
variable {m : ModuleDecl} {index : Nat} {name : String} {site : Span}

theorem FillsLast.addMember
    (h : FillsLast m ⟨.struct index, name, site⟩) (x : Member) :
    FillsLast (m.addMember index x) ⟨.struct index, name, site⟩ := by
  cases h with
  | @struct ds d _ _ _ hlast hindex hname =>
      have hmodify : (m.addMember index x).structs =
          ds ++ [{ d with members := d.members ++ [x] }] := by
        rw [ModuleDecl.addMember, hlast, ← hindex]
        exact Grammar.modify_length_append ds d _
      exact .struct hmodify hindex hname

theorem FillsLast.addEnumerator
    (h : FillsLast m ⟨.enum index, name, site⟩) (x : String) :
    FillsLast (m.addEnumerator index x) ⟨.enum index, name, site⟩ := by
  cases h with
  | @enum ds d _ _ _ hlast hindex hname =>
      have hmodify : (m.addEnumerator index x).enums =
          ds ++ [{ d with enumerators := d.enumerators ++ [x] }] := by
        rw [ModuleDecl.addEnumerator, hlast, ← hindex]
        exact Grammar.modify_length_append ds d _
      exact .enum hmodify hindex hname

theorem FillsLast.addMethod
    (h : FillsLast m ⟨.interface index, name, site⟩) (x : Method) :
    FillsLast (m.addMethod index x) ⟨.interface index, name, site⟩ := by
  cases h with
  | @interface ds d _ _ _ hlast hindex hname =>
      have hmodify : (m.addMethod index x).interfaces =
          ds ++ [{ d with methods := d.methods ++ [x] }] := by
        rw [ModuleDecl.addMethod, hlast, ← hindex]
        exact Grammar.modify_length_append ds d _
      exact .interface hmodify hindex hname

theorem FillsLast.addCase
    (h : FillsLast m ⟨.union index, name, site⟩) (x : UnionCase) :
    FillsLast (m.addCase index x) ⟨.union index, name, site⟩ := by
  cases h with
  | @union ds d _ _ _ hlast hindex hname =>
      have hmodify : (m.addCase index x).unions =
          ds ++ [{ d with cases := d.cases ++ [x] }] := by
        rw [ModuleDecl.addCase, hlast, ← hindex]
        exact Grammar.modify_length_append ds d _
      exact .union hmodify hindex hname

end

theorem Move.topped {a : Assembly} (hcurrent : a.current < a.tree.count)
    (htopped : Topped a) {s : Statement} (h : Move a s) :
    Topped (a.apply s) := by
  cases h with
  | @directive d =>
      have hextends := ModuleTree.extends_addDirective (t := a.tree) d
      obtain hscopes | ⟨hscopes, hbelow, hfills⟩ := htopped
      · exact .plain (hscopes.mono hextends)
      · exact .filling hscopes (hbelow.mono hextends) hfills
  | skip => exact htopped
  | declare hscopes => exact .plain (hscopes.declare _)
  | @openModule name site hscopes =>
      have hid : a.tree.count < (a.tree.addChild a.current name).count := by
        simp
      have hname :
          ((a.tree.addChild a.current name).get a.tree.count).name = name := by
        rw [ModuleTree.get_addChild_self hcurrent]
        rfl
      exact .plain (.module (hscopes.mono (ModuleTree.extends_addChild name))
        hid ModuleTree.parent?_addChild_self hname)
  | openStruct hscopes =>
      exact topped_openScope hcurrent hscopes (.struct rfl rfl rfl)
  | openEnum hscopes =>
      exact topped_openScope hcurrent hscopes (.enum rfl rfl rfl)
  | openInterface hscopes =>
      exact topped_openScope hcurrent hscopes (.interface rfl rfl rfl)
  | openUnion hscopes =>
      exact topped_openScope hcurrent hscopes (.union rfl rfl rfl)
  | member hscopes hbelow hfills =>
      rw [apply_member hscopes]
      exact topped_modifyCurrent hcurrent hscopes hbelow (fun _ => rfl)
        (fun _ => rfl) (hfills.addMember _)
  | enumerator hscopes hbelow hfills =>
      rw [apply_enumerator hscopes]
      exact topped_modifyCurrent hcurrent hscopes hbelow (fun _ => rfl)
        (fun _ => rfl) (hfills.addEnumerator _)
  | method hscopes hbelow hfills =>
      rw [apply_method hscopes]
      exact topped_modifyCurrent hcurrent hscopes hbelow (fun _ => rfl)
        (fun _ => rfl) (hfills.addMethod _)
  | unionCase hscopes hbelow hfills =>
      rw [apply_unionCase hscopes]
      exact topped_modifyCurrent hcurrent hscopes hbelow (fun _ => rfl)
        (fun _ => rfl) (hfills.addCase _)
  | closeModule hscopes hbelow hparent =>
      rw [apply_closeModule hscopes hparent]
      exact .plain hbelow
  | closeFilled hscopes hbelow hfills =>
      rw [apply_closeFilled hscopes hfills]
      exact .plain hbelow

theorem count_fill (a : Assembly)
    (change : Target → ModuleDecl → ModuleDecl) :
    (a.fill change).tree.count = a.tree.count := by
  unfold Assembly.fill
  split
  next => rfl
  next => exact ModuleTree.count_modify

theorem tree_close (a : Assembly) : a.close.tree = a.tree := by
  unfold Assembly.close
  split
  next => rfl
  next => split <;> rfl

/-- Only the opening brace of a module adds a module. -/
theorem count_apply_eq {a : Assembly} {s : Statement}
    (hs : ∀ name site, s ≠ .openModule name site) :
    (a.apply s).tree.count = a.tree.count := by
  have hdeclare : ∀ d, (a.declare d).tree.count = a.tree.count := fun _ =>
    ModuleTree.count_modify
  cases s with
  | directive => rfl
  | skip => rfl
  | close => simp [Assembly.apply, tree_close]
  | openModule name site => exact absurd rfl (hs name site)
  | declare => simp [Assembly.apply, hdeclare]
  | openStruct => simp [Assembly.apply, Assembly.openScope, hdeclare]
  | openEnum => simp [Assembly.apply, Assembly.openScope, hdeclare]
  | openInterface => simp [Assembly.apply, Assembly.openScope, hdeclare]
  | openUnion => simp [Assembly.apply, Assembly.openScope, hdeclare]
  | member => simp [Assembly.apply, Assembly.addMember, count_fill]
  | enumerator => simp [Assembly.apply, Assembly.addEnumerator, count_fill]
  | method => simp [Assembly.apply, Assembly.addMethod, count_fill]
  | unionCase => simp [Assembly.apply, Assembly.addCase, count_fill]

theorem count_apply (a : Assembly) (s : Statement) :
    a.tree.count ≤ (a.apply s).tree.count ∧
      (a.apply s).tree.count ≤ a.tree.count + 1 := by
  cases s with
  | openModule => simp [Assembly.apply, Assembly.openModule]
  | _ =>
      rw [count_apply_eq (by simp)]
      exact ⟨Nat.le_refl _, Nat.le_succ _⟩

/-- Every module has been paid for with a token. -/
theorem Reached.count_le {ts rest : List Token} {a : Assembly}
    (h : Reached ts a rest) : a.tree.count + rest.length ≤ ts.length + 1 := by
  induction h with
  | start => exact Nat.le_of_eq (Nat.add_comm _ _)
  | @step a t us rest s _ hread ih =>
      have hcount := (count_apply a s).2
      have hlength := readStatement_length_le hread
      rw [List.length_cons] at ih
      omega

theorem Reached.wellScoped {ts rest : List Token} {a : Assembly}
    (h : Reached ts a rest) : WellScoped a := by
  induction h with
  | start => exact wellScoped_start
  | @step a t us rest s _ hread ih =>
      have hmove := move_of_readStatement ih hread
      have hcount := (count_apply a s).1
      exact ⟨Nat.lt_of_lt_of_le ih.count_pos hcount,
        hmove.topped ih.current_lt ih.topped⟩

end Idl
