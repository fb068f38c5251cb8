import Idl.Proofs.Assembly.Scopes

/-!
# The tree only grows

A statement appends to a list: a declaration or a module to those of the
current module, an entry to those of the declaration that is being filled, or a
directive.  So along a run whatever the tree holds stays where it is, and only
a declaration whose scope is open gets further entries.

For this to add up over several statements a scope that is closed must stay
closed.  Scopes refer to declarations by place, so it has to be shown that a
new scope never refers to a declaration or a module that was there before.
-/

namespace Idl

/-! ## Declarations with entries -/

/-- How declarations of a sort take further entries. -/
structure Body (D E : Type) where
  add : D → List E → D
  add_nil : ∀ d, add d [] = d
  add_add : ∀ d es fs, add (add d es) fs = add d (es ++ fs)

def structBody : Body StructDecl Member where
  add d ms := { d with members := d.members ++ ms }
  add_nil d := by simp
  add_add d es fs := by simp

def enumBody : Body EnumDecl String where
  add d names := { d with enumerators := d.enumerators ++ names }
  add_nil d := by simp
  add_add d es fs := by simp

def interfaceBody : Body InterfaceDecl Method where
  add d ms := { d with methods := d.methods ++ ms }
  add_nil d := by simp
  add_add d es fs := by simp

def unionBody : Body UnionDecl UnionCase where
  add d cs := { d with cases := d.cases ++ cs }
  add_nil d := by simp
  add_add d es fs := by simp

/-- Every declaration of the first list stands in the second at the same place.
It may have further entries behind its own if it is open. -/
def Kept {D E : Type} (body : Body D E) (isOpen : Nat → Prop) (xs ys : List D) :
    Prop :=
  ∀ i d, xs[i]? = some d →
    ∃ more, ys[i]? = some (body.add d more) ∧ (¬ isOpen i → more = [])

section
variable {D E : Type} {body : Body D E} {isOpen isOpen' : Nat → Prop}
  {xs ys zs : List D}

theorem Kept.refl : Kept body isOpen xs xs := fun i d h =>
  ⟨[], by rw [body.add_nil, h], fun _ => rfl⟩

theorem Kept.length_le (h : Kept body isOpen xs ys) :
    xs.length ≤ ys.length := by
  by_contra hlt
  have hindex : ys.length < xs.length := by omega
  obtain ⟨more, hmore, -⟩ := h ys.length _ (List.getElem?_eq_getElem hindex)
  simp at hmore

theorem Kept.trans (h : Kept body isOpen xs ys) (h' : Kept body isOpen' ys zs)
    (hopen : ∀ i < xs.length, isOpen' i → isOpen i) :
    Kept body isOpen xs zs := by
  intro i d hd
  have hi : i < xs.length := (List.getElem?_eq_some_iff.mp hd).1
  obtain ⟨more, hmore, hclosed⟩ := h i d hd
  obtain ⟨more', hmore', hclosed'⟩ := h' i _ hmore
  refine ⟨more ++ more', by rw [hmore', body.add_add], fun hnot => ?_⟩
  rw [hclosed hnot, hclosed' fun h => hnot (hopen i hi h), List.append_nil]

theorem Kept.append (d : D) : Kept body isOpen xs (xs ++ [d]) := by
  intro i x hx
  have hi : i < xs.length := (List.getElem?_eq_some_iff.mp hx).1
  refine ⟨[], ?_, fun _ => rfl⟩
  rw [body.add_nil, List.getElem?_append_left hi, hx]

theorem Kept.modify {index : Nat} (hindex : isOpen index) (e : E) :
    Kept body isOpen xs (xs.modify index fun d => body.add d [e]) := by
  intro i d hd
  by_cases hi : index = i
  · subst hi
    exact ⟨[e], by simp [hd],
      fun hnot => absurd hindex hnot⟩
  · exact ⟨[], by simp [hd, hi, body.add_nil],
      fun _ => rfl⟩

end

/-! ## Modules -/

/-- There is such a declaration in the module. -/
def ModuleDecl.Declares (m : ModuleDecl) : Target → Prop
  | .module _ => False
  | .struct index => index < m.structs.length
  | .enum index => index < m.enums.length
  | .interface index => index < m.interfaces.length
  | .union index => index < m.unions.length

/-- The second module is the first one with more in it, and of the declarations
in the first one only those that are open have changed. -/
structure ModuleGrown (isOpen : Target → Prop) (m n : ModuleDecl) : Prop where
  name : n.name = m.name
  parent : n.parent = m.parent
  children : m.children <+: n.children
  typedefs : m.typedefs <+: n.typedefs
  constants : m.constants <+: n.constants
  structs : Kept structBody (fun i => isOpen (.struct i)) m.structs n.structs
  enums : Kept enumBody (fun i => isOpen (.enum i)) m.enums n.enums
  interfaces :
    Kept interfaceBody (fun i => isOpen (.interface i)) m.interfaces
      n.interfaces
  unions : Kept unionBody (fun i => isOpen (.union i)) m.unions n.unions

section
variable {isOpen isOpen' : Target → Prop} {m n l : ModuleDecl}

theorem ModuleGrown.refl (isOpen : Target → Prop) (m : ModuleDecl) :
    ModuleGrown isOpen m m where
  name := rfl
  parent := rfl
  children := List.prefix_rfl
  typedefs := List.prefix_rfl
  constants := List.prefix_rfl
  structs := .refl
  enums := .refl
  interfaces := .refl
  unions := .refl

theorem ModuleGrown.trans (h : ModuleGrown isOpen m n)
    (h' : ModuleGrown isOpen' n l)
    (hopen : ∀ target, m.Declares target → isOpen' target → isOpen target) :
    ModuleGrown isOpen m l where
  name := h'.name.trans h.name
  parent := h'.parent.trans h.parent
  children := h.children.trans h'.children
  typedefs := h.typedefs.trans h'.typedefs
  constants := h.constants.trans h'.constants
  structs := h.structs.trans h'.structs fun i => hopen (.struct i)
  enums := h.enums.trans h'.enums fun i => hopen (.enum i)
  interfaces := h.interfaces.trans h'.interfaces fun i => hopen (.interface i)
  unions := h.unions.trans h'.unions fun i => hopen (.union i)

theorem ModuleGrown.declares (h : ModuleGrown isOpen m n) {target : Target}
    (htarget : m.Declares target) : n.Declares target := by
  cases target with
  | module => exact htarget
  | struct => exact Nat.lt_of_lt_of_le htarget h.structs.length_le
  | enum => exact Nat.lt_of_lt_of_le htarget h.enums.length_le
  | interface => exact Nat.lt_of_lt_of_le htarget h.interfaces.length_le
  | union => exact Nat.lt_of_lt_of_le htarget h.unions.length_le

theorem moduleGrown_declare (d : Declaration) :
    ModuleGrown isOpen m (m.declare d) := by
  have hrefl := ModuleGrown.refl isOpen m
  cases d with
  | interface d => exact { hrefl with interfaces := .append d }
  | typedef d => exact { hrefl with typedefs := List.prefix_append _ _ }
  | struct d => exact { hrefl with structs := .append d }
  | constant d => exact { hrefl with constants := List.prefix_append _ _ }
  | enum d => exact { hrefl with enums := .append d }
  | union d => exact { hrefl with unions := .append d }

variable {index : Nat}

theorem moduleGrown_addMember (hopen : isOpen (.struct index)) (x : Member) :
    ModuleGrown isOpen m (m.addMember index x) :=
  { ModuleGrown.refl isOpen m with structs := .modify hopen x }

theorem moduleGrown_addEnumerator (hopen : isOpen (.enum index)) (x : String) :
    ModuleGrown isOpen m (m.addEnumerator index x) :=
  { ModuleGrown.refl isOpen m with enums := .modify hopen x }

theorem moduleGrown_addMethod (hopen : isOpen (.interface index)) (x : Method) :
    ModuleGrown isOpen m (m.addMethod index x) :=
  { ModuleGrown.refl isOpen m with interfaces := .modify hopen x }

theorem moduleGrown_addCase (hopen : isOpen (.union index)) (x : UnionCase) :
    ModuleGrown isOpen m (m.addCase index x) :=
  { ModuleGrown.refl isOpen m with unions := .modify hopen x }

end

/-! ## States -/

/-- What the open scopes refer to. -/
def Assembly.targets (a : Assembly) : List Target := a.scopes.map Scope.target

/-- The declaration at a place in the given module has an open scope. -/
def Assembly.Opens (a : Assembly) (id : Nat) (target : Target) : Prop :=
  a.current = id ∧ target ∈ a.targets

/-- The tree of the second state is that of the first with more in it.  What
had been closed has not changed and has not been opened again. -/
structure Grown (a b : Assembly) : Prop where
  count_le : a.tree.count ≤ b.tree.count
  modules : ∀ id < a.tree.count,
    ModuleGrown (a.Opens id) (a.tree.get id) (b.tree.get id)
  directives : a.tree.directives <+: b.tree.directives
  closed : ∀ id < a.tree.count, id ≠ ModuleTree.root →
    .module id ∉ a.targets → b.tree.get id = a.tree.get id
  declarations : ∀ id < a.tree.count, ∀ target,
    (a.tree.get id).Declares target → b.Opens id target → a.Opens id target
  scopes : ∀ id < a.tree.count, .module id ∈ b.targets → .module id ∈ a.targets

section
variable {a b c : Assembly}

theorem Grown.trans (h : Grown a b) (h' : Grown b c) : Grown a c where
  count_le := Nat.le_trans h.count_le h'.count_le
  modules id hid := (h.modules id hid).trans
    (h'.modules id (Nat.lt_of_lt_of_le hid h.count_le)) (h.declarations id hid)
  directives := h.directives.trans h'.directives
  closed id hid hroot hnot := by
    have hid' := Nat.lt_of_lt_of_le hid h.count_le
    rw [h'.closed id hid' hroot fun hopen => hnot (h.scopes id hid hopen),
      h.closed id hid hroot hnot]
  declarations id hid target htarget hopen := by
    have hid' := Nat.lt_of_lt_of_le hid h.count_le
    have hopen' := h'.declarations id hid' target
      ((h.modules id hid).declares htarget) hopen
    exact h.declarations id hid target htarget hopen'
  scopes id hid hopen :=
    h.scopes id hid (h'.scopes id (Nat.lt_of_lt_of_le hid h.count_le) hopen)

/-- Nothing but directives is added, and no scope is opened. -/
theorem grown_of_modules (hmodules : b.tree.modules = a.tree.modules)
    (hdirectives : a.tree.directives <+: b.tree.directives)
    (hopens : ∀ id target, b.Opens id target → (∃ id, target = .module id) ∨
      a.Opens id target)
    (hscopes : ∀ target ∈ b.targets, target ∈ a.targets) : Grown a b := by
  have hget : ∀ id, b.tree.get id = a.tree.get id := fun id => by
    rw [ModuleTree.get, hmodules, ModuleTree.get]
  have hcount : b.tree.count = a.tree.count := by
    rw [ModuleTree.count, hmodules, ModuleTree.count]
  refine ⟨Nat.le_of_eq hcount.symm, fun id _ => ?_, hdirectives,
    fun id _ _ _ => hget id, fun id _ target htarget hopen => ?_,
    fun id _ => hscopes _⟩
  · rw [hget]
    exact .refl _ _
  · obtain ⟨_, rfl⟩ | hopen := hopens id target hopen
    · exact htarget.elim
    · exact hopen

theorem Grown.refl (a : Assembly) : Grown a a :=
  grown_of_modules rfl List.prefix_rfl (fun _ _ => .inr) fun _ => id

theorem Nested.module_of_mem {t : ModuleTree} {scopes : List Scope} {id : Nat}
    (h : Nested t scopes id) {target : Target}
    (htarget : target ∈ scopes.map Scope.target) :
    ∃ id, target = .module id := by
  induction h with
  | outermost => cases htarget
  | module hbelow hid hparent hname ih =>
      rcases List.mem_cons.mp htarget with rfl | hmem
      · exact ⟨_, rfl⟩
      · exact ih hmem

theorem Nested.current_mem {t : ModuleTree} {scopes : List Scope} {id : Nat}
    (h : Nested t scopes id) :
    id = ModuleTree.root ∨ .module id ∈ scopes.map Scope.target := by
  cases h with
  | outermost => exact .inl rfl
  | module => exact .inr List.mem_cons_self

theorem WellScoped.current_mem (h : WellScoped a) :
    a.current = ModuleTree.root ∨ .module a.current ∈ a.targets := by
  rcases h with ⟨-, hscopes | ⟨hscopes, hbelow, -⟩⟩
  · exact hscopes.current_mem
  · refine hbelow.current_mem.imp id fun hmem => ?_
    rw [Assembly.targets, hscopes]
    exact List.mem_cons_of_mem _ hmem

/-- The current module is changed, and the scope of a new declaration may be
opened. -/
theorem grown_of_change (hwell : WellScoped a) {f : ModuleDecl → ModuleDecl}
    (htree : b.tree = a.tree.modify a.current f)
    (hcurrent : b.current = a.current)
    (hchange : ModuleGrown (a.Opens a.current) a.currentModule
      (f a.currentModule))
    (hscopes : ∀ target ∈ b.targets, target ∈ a.targets ∨
      (∀ id, target ≠ .module id) ∧ ¬ a.currentModule.Declares target) :
    Grown a b := by
  have hget : ∀ id ≠ a.current, b.tree.get id = a.tree.get id := by
    intro id hne
    rw [htree, ModuleTree.get_modify_of_ne hne]
  refine ⟨by simp [htree], fun id _ => ?_, by simp [htree, ModuleTree.modify],
    fun id _ hroot hclosed => hget id ?_, fun id _ target htarget hopen => ?_,
    fun id _ hopen => ?_⟩
  · by_cases hid : id = a.current
    · subst hid
      rw [htree, ModuleTree.get_modify_self hwell.current_lt]
      exact hchange
    · rw [hget id hid]
      exact .refl _ _
  · rintro rfl
    exact hwell.current_mem.elim hroot hclosed
  · obtain ⟨rfl, hmem⟩ := hopen
    rw [hcurrent] at htarget ⊢
    obtain hmem | ⟨-, hnew⟩ := hscopes target hmem
    · exact ⟨rfl, hmem⟩
    · exact absurd htarget hnew
  · obtain hmem | ⟨hother, -⟩ := hscopes _ hopen
    · exact hmem
    · exact absurd rfl (hother id)

theorem grown_declare (hwell : WellScoped a) (d : Declaration) :
    Grown a (a.declare d) :=
  grown_of_change hwell rfl rfl (moduleGrown_declare d) fun _ => .inl

/-- The declaration whose scope is opened is the first at its place. -/
theorem grown_openScope (hwell : WellScoped a) (d : Declaration)
    {target : Target} (hkind : ∀ id, target ≠ .module id)
    (hnew : ¬ a.currentModule.Declares target) (name : String) (site : Span) :
    Grown a ((a.declare d).openScope target name site) := by
  refine grown_of_change hwell rfl rfl (moduleGrown_declare d) fun _ hmem => ?_
  rcases List.mem_cons.mp hmem with rfl | hmem
  · exact .inr ⟨hkind, hnew⟩
  · exact .inl hmem

theorem grown_openModule (hwell : WellScoped a) (name : String) (site : Span) :
    Grown a (a.openModule name site) := by
  have hget : ∀ id < a.tree.count, id ≠ a.current →
      (a.openModule name site).tree.get id = a.tree.get id :=
    fun id hid hne => ModuleTree.get_addChild_of_ne (Nat.ne_of_lt hid) hne
  have hmem : ∀ id < a.tree.count,
      .module id ∈ (a.openModule name site).targets →
        .module id ∈ a.targets := by
    intro id hid hopen
    rcases List.mem_cons.mp hopen with heq | hopen
    · cases heq
      exact absurd hid (Nat.lt_irrefl _)
    · exact hopen
  refine ⟨by simp [Assembly.openModule], fun id hid => ?_, ?_,
    fun id hid hroot hclosed => hget id hid ?_, fun id hid target _ hopen => ?_,
    hmem⟩
  · by_cases hcurrent : id = a.current
    · subst hcurrent
      have hparent : (a.openModule name site).tree.get a.current =
          { a.tree.get a.current with
            children := (a.tree.get a.current).children ++ [a.tree.count] } :=
        ModuleTree.get_addChild_parent hid
      rw [hparent]
      exact { ModuleGrown.refl _ (a.tree.get a.current) with
        children := List.prefix_append _ _ }
    · rw [hget id hid hcurrent]
      exact .refl _ _
  · exact List.prefix_rfl
  · rintro rfl
    exact hwell.current_mem.elim hroot hclosed
  · obtain ⟨hcurrent, -⟩ := hopen
    cases hcurrent
    exact absurd hid (Nat.lt_irrefl _)

theorem grown_closed {scope : Scope} {scopes : List Scope} {current : Nat}
    (hscopes : a.scopes = scope :: scopes)
    (hbelow : Nested a.tree scopes current) :
    Grown a { a with current := current, scopes := scopes } := by
  refine grown_of_modules rfl List.prefix_rfl (fun id target hopen => ?_)
    fun target hmem => ?_
  · exact .inl (hbelow.module_of_mem hopen.2)
  · rw [Assembly.targets, hscopes]
    exact List.mem_cons_of_mem _ hmem

theorem opens_of_scopes {scope : Scope} {scopes : List Scope}
    (hscopes : a.scopes = scope :: scopes) :
    a.Opens a.current scope.target := by
  refine ⟨rfl, ?_⟩
  rw [Assembly.targets, hscopes]
  exact List.mem_cons_self

/-- Every statement makes the tree grow. -/
theorem Move.grown {s : Statement} (hwell : WellScoped a) (h : Move a s) :
    Grown a (a.apply s) := by
  cases h with
  | directive =>
      exact grown_of_modules rfl (List.prefix_append _ _) (fun _ _ => .inr)
        fun _ => id
  | skip => exact .refl a
  | declare => exact grown_declare hwell _
  | openModule => exact grown_openModule hwell _ _
  | openStruct =>
      exact grown_openScope hwell _ (by simp) (Nat.lt_irrefl _) _ _
  | openEnum =>
      exact grown_openScope hwell _ (by simp) (Nat.lt_irrefl _) _ _
  | openInterface =>
      exact grown_openScope hwell _ (by simp) (Nat.lt_irrefl _) _ _
  | openUnion =>
      exact grown_openScope hwell _ (by simp) (Nat.lt_irrefl _) _ _
  | member hscopes =>
      rw [apply_member hscopes]
      exact grown_of_change hwell rfl rfl
        (moduleGrown_addMember (opens_of_scopes hscopes) _) fun _ => .inl
  | enumerator hscopes =>
      rw [apply_enumerator hscopes]
      exact grown_of_change hwell rfl rfl
        (moduleGrown_addEnumerator (opens_of_scopes hscopes) _) fun _ => .inl
  | method hscopes =>
      rw [apply_method hscopes]
      exact grown_of_change hwell rfl rfl
        (moduleGrown_addMethod (opens_of_scopes hscopes) _) fun _ => .inl
  | unionCase hscopes =>
      rw [apply_unionCase hscopes]
      exact grown_of_change hwell rfl rfl
        (moduleGrown_addCase (opens_of_scopes hscopes) _) fun _ => .inl
  | closeModule hscopes hbelow hparent =>
      rw [apply_closeModule hscopes hparent]
      exact grown_closed hscopes hbelow
  | closeFilled hscopes hbelow hfills =>
      rw [apply_closeFilled hscopes hfills]
      exact grown_closed hscopes hbelow

end

/-! ## Runs -/

/-- The run goes on from the first state to the second. -/
inductive Leads (a : Assembly) (ts : List Token) :
    Assembly → List Token → Prop where
  | refl : Leads a ts a ts
  | step {b : Assembly} {t : Token} {us rest : List Token} {s : Statement}
      (h : Leads a ts b (t :: us))
      (hread : readStatement b.scopeKind t us = .ok (s, rest)) :
      Leads a ts (b.apply s) rest

section
variable {a b : Assembly} {ts rest rest' : List Token}

theorem Reached.of_leads (h : Reached ts a rest)
    (hleads : Leads a rest b rest') : Reached ts b rest' := by
  induction hleads with
  | refl => exact h
  | step _ hread ih => exact ih.step hread

/-- Of two states of a run the later one is grown from the earlier one. -/
theorem grown_of_leads (h : Reached ts a rest) (hleads : Leads a rest b rest') :
    Grown a b := by
  induction hleads with
  | refl => exact .refl a
  | step hbefore hread ih =>
      have hwell := (h.of_leads hbefore).wellScoped
      exact ih.trans ((move_of_readStatement hwell hread).grown hwell)

end

/-- The tokens of an empty enumeration and of the beginning of another one. -/
def enumBehindEnum : List Token :=
  [⟨.identifier, "enum", ⟨0, 4⟩⟩, ⟨.identifier, "E", ⟨5, 6⟩⟩,
    ⟨.openBrace, "", ⟨7, 8⟩⟩, ⟨.closeBrace, "", ⟨8, 9⟩⟩,
    ⟨.identifier, "enum", ⟨10, 14⟩⟩, ⟨.identifier, "F", ⟨15, 16⟩⟩,
    ⟨.openBrace, "", ⟨17, 18⟩⟩, ⟨.identifier, "A", ⟨19, 20⟩⟩]

/-- The state between the two enumerations. -/
def behindEnum : Assembly :=
  (Assembly.start.apply (.openEnum "E" ⟨5, 6⟩)).apply .close

/-- What is read behind the first enumeration does not get into it. -/
theorem grown_enumBehindEnum :
    ∃ b, Reached enumBehindEnum behindEnum (enumBehindEnum.drop 4) ∧
      Leads behindEnum (enumBehindEnum.drop 4) b [] ∧
      (b.tree.get ModuleTree.root).enums[1]? = some ⟨"F", ["A"]⟩ ∧
      (b.tree.get ModuleTree.root).enums[0]? = some ⟨"E", []⟩ := by
  have hopen : readStatement .global ⟨.identifier, "enum", ⟨0, 4⟩⟩
      (enumBehindEnum.drop 1) =
        .ok (.openEnum "E" ⟨5, 6⟩, enumBehindEnum.drop 3) := by
    decide +kernel
  have hclose : readStatement .enum ⟨.closeBrace, "", ⟨8, 9⟩⟩
      (enumBehindEnum.drop 4) = .ok (.close, enumBehindEnum.drop 4) := by
    decide +kernel
  have hnext : readStatement behindEnum.scopeKind
      ⟨.identifier, "enum", ⟨10, 14⟩⟩ (enumBehindEnum.drop 5) =
        .ok (.openEnum "F" ⟨15, 16⟩, enumBehindEnum.drop 7) := by
    decide +kernel
  have hentry : readStatement .enum ⟨.identifier, "A", ⟨19, 20⟩⟩ [] =
      .ok (.enumerator "A", []) := by
    decide +kernel
  have hreached : Reached enumBehindEnum behindEnum (enumBehindEnum.drop 4) :=
    (Reached.start.step hopen).step hclose
  have hleads := (Leads.refl.step hnext).step hentry
  have hgrown := grown_of_leads hreached hleads
  refine ⟨_, hreached, hleads, rfl, ?_⟩
  obtain ⟨more, hmore, hclosed⟩ :=
    (hgrown.modules ModuleTree.root (by decide)).enums 0 ⟨"E", []⟩ rfl
  rw [hclosed (by rintro ⟨-, hopens⟩; cases hopens)] at hmore
  exact hmore

end Idl
