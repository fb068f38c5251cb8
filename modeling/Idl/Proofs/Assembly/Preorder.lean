import Idl.Proofs.Assembly.Prefix
import Idl.Proofs.Assembly.Scopes
import Idl.Proofs.Grammar.Acceptance
import Idl.Proofs.Module.Numbering

/-!
# Modules stand in the order in which they are opened

Placing the items of a module adds modules behind all others, and those that
are added below it are numbered in the order in which they are met, by
induction on the items.  So the modules of a parsed tree are numbered in the
order of a walk.

The scopes that are open behind the opening brace of a module are the scopes of
the modules around it and its own, and they are still nested in the same way in
the tree at the end, as a tree only grows.  So their names make its path.
-/

namespace Idl

open Grammar ModuleTree

/-! ## Placing items numbers modules -/

/-- The second tree comes from the first by adding modules below one of
them. -/
structure Filled (id : Nat) (t u : ModuleTree) : Prop where
  grown : t.Extends u
  numbered : ∃ added, u.children id = t.children id ++ added ∧
    u.Numbered id t.count added u.count
  others : ∀ other, other < t.count → other ≠ id →
    u.children other = t.children other

section
variable {t u v : ModuleTree} {id : Nat}

/-- Nothing is added where no module changes its children. -/
theorem filled_of_count_eq (hextends : t.Extends u) (hcount : u.count = t.count)
    (hchildren : ∀ other, u.children other = t.children other) :
    Filled id t u := by
  refine ⟨hextends, ⟨[], ?_, ?_⟩, fun other _ _ => hchildren other⟩
  · rw [hchildren, List.append_nil]
  · rw [hcount]
    exact .nil

theorem Filled.trans (hid : id < t.count) (h : Filled id t u)
    (h' : Filled id u v) : Filled id t v := by
  obtain ⟨added, hadded, hnumbered⟩ := h.numbered
  obtain ⟨added', hadded', hnumbered'⟩ := h'.numbered
  have hfirst : v.Numbered id t.count added u.count :=
    hnumbered.congr (fun other _ hlt => h'.grown.parent? other hlt)
      fun other hle hlt => h'.others other hlt (by omega)
  refine ⟨h.grown.trans h'.grown,
    ⟨added ++ added', ?_, hfirst.append hnumbered'⟩, fun other hlt hne => ?_⟩
  · rw [hadded', hadded, List.append_assoc]
  · have hlt' := Nat.lt_of_lt_of_le hlt h.grown.count_le
    rw [h'.others other hlt' hne, h.others other hlt hne]

theorem children_modify {f : ModuleDecl → ModuleDecl}
    (hf : ∀ m, (f m).children = m.children) (other : Nat) :
    (t.modify id f).children other = t.children other :=
  get_modify_unchanged hf

theorem children_declare (d : Declaration) (other : Nat) :
    (t.declare id d).children other = t.children other := by
  refine children_modify (fun m => ?_) other
  cases d <;> rfl

theorem filled_addDirectives (ds : List Directive) :
    Filled id t (ds.foldl addDirective t) := by
  have hmodules : (ds.foldl addDirective t).modules = t.modules := by
    induction ds generalizing t with
    | nil => rfl
    | cons d ds ih => exact ih
  refine filled_of_count_eq (extends_foldl_addDirective ds t) ?_ fun other => ?_
  · rw [count, hmodules, count]
  · simp only [children, ModuleTree.get, hmodules]

theorem filled_declare (d : Declaration) : Filled id t (t.declare id d) :=
  filled_of_count_eq (extends_declare d) count_modify (children_declare d)

/-- A module is numbered in front of those that are placed in it. -/
theorem Filled.addChild {name : String} (hid : id < t.count)
    (h : Filled t.count (t.addChild id name) u) : Filled id t u := by
  obtain ⟨added, hadded, hnumbered⟩ := h.numbered
  rw [count_addChild] at hnumbered
  have hnew : u.children t.count = added := by
    rw [hadded, children, get_addChild_self hid]
    rfl
  have hparent : u.parent? t.count = some id := by
    rw [h.grown.parent? t.count (by simp), parent?_addChild_self]
  refine ⟨(extends_addChild name).trans h.grown, ⟨[t.count], ?_, ?_⟩,
    fun other hlt hne => ?_⟩
  · rw [h.others id (by simp; omega) (by omega), children,
      get_addChild_parent hid]
    rfl
  · exact .cons hparent (hnew ▸ hnumbered) .nil
  · rw [h.others other (by simp; omega) (by omega), children,
      get_addChild_of_ne (by omega) hne]
    rfl

mutual
theorem filled_placeItem (id : Nat) (t : ModuleTree) (hid : id < t.count) :
    ∀ i, Filled id t (placeItem id t i)
  | .directive d => filled_addDirectives [d]
  | .declaration d inner =>
      (filled_declare d).trans hid (filled_addDirectives inner)
  | .module name body =>
      have hinner : t.count < (t.addChild id name).count := by simp
      .addChild hid (filled_placeItems t.count _ hinner body)
theorem filled_placeItems (id : Nat) (t : ModuleTree) (hid : id < t.count) :
    ∀ is, Filled id t (placeItems id t is)
  | [] => filled_of_count_eq (.refl t) rfl fun _ => rfl
  | i :: is =>
      have hfirst := filled_placeItem id t hid i
      have hid' := Nat.lt_of_lt_of_le hid hfirst.grown.count_le
      hfirst.trans hid (filled_placeItems id _ hid' is)
end

end

theorem Grammar.Source.numbered {ts : List Token} {tree : ModuleTree}
    (h : Source ts tree) :
    tree.Numbered root (root + 1) (tree.children root) tree.count ∧
      tree.parent? root = none := by
  rcases h with ⟨is, -, rfl⟩
  have hfilled := filled_placeItems root .empty (by decide) is
  obtain ⟨added, hadded, hnumbered⟩ := hfilled.numbered
  refine ⟨?_, hfilled.grown.parent? root (by decide)⟩
  rw [hadded]
  exact hnumbered

/-! ## The scopes behind an opening brace -/

/-- The names of the modules whose scopes are open, outermost first. -/
def Assembly.openModules (a : Assembly) : List String :=
  ((a.scopes.filter (·.target.kind = .module)).map Scope.name).reverse

/-- The state behind the opening brace of a module, in the run over the
tokens. -/
inductive Opened (ts : List Token) : Nat → Assembly → Prop where
  | intro {a : Assembly} {t : Token} {us rest : List Token} {name : String}
      {site : Span} (hreached : Reached ts a (t :: us))
      (hread : readStatement a.scopeKind t us =
        .ok (.openModule name site, rest)) :
      Opened ts a.tree.count (a.apply (.openModule name site))

theorem Nested.segments {t : ModuleTree} {scopes : List Scope} {id : Nat}
    (h : Nested t scopes id) (hroot : t.parent? root = none)
    (hlt : ∀ id parent, id < t.count → t.parent? id = some parent →
      parent < id) :
    t.segments id =
      ((scopes.filter (·.target.kind = .module)).map Scope.name).reverse := by
  induction h with
  | outermost => exact segments_of_none hroot
  | @module scopes id parent name site hbelow hid hparent hname ih =>
      rw [segments_of_parent hparent (hlt id parent hid hparent), ih, hname]
      simp [Target.kind]

section
variable {a fin : Assembly} {ts rest : List Token} {tree : ModuleTree}

theorem extends_fill {change : Target → ModuleDecl → ModuleDecl}
    (h : ∀ target m, (change target m).parent = m.parent ∧
      (change target m).name = m.name) :
    a.tree.Extends (a.fill change).tree := by
  unfold Assembly.fill
  split
  next => exact .refl _
  next => exact extends_modify (fun m => (h _ m).1) fun m => (h _ m).2

theorem extends_apply (a : Assembly) (s : Statement) :
    a.tree.Extends (a.apply s).tree := by
  cases s with
  | directive d => exact extends_addDirective d
  | skip => exact .refl _
  | close =>
      rw [Assembly.apply, tree_close]
      exact .refl _
  | openModule name => exact extends_addChild name
  | declare d => exact extends_declare d
  | openStruct => exact extends_declare _
  | openEnum => exact extends_declare _
  | openInterface => exact extends_declare _
  | openUnion => exact extends_declare _
  | member m =>
      exact extends_fill fun target _ => by cases target <;> exact ⟨rfl, rfl⟩
  | enumerator =>
      exact extends_fill fun target _ => by cases target <;> exact ⟨rfl, rfl⟩
  | method =>
      exact extends_fill fun target _ => by cases target <;> exact ⟨rfl, rfl⟩
  | unionCase =>
      exact extends_fill fun target _ => by cases target <;> exact ⟨rfl, rfl⟩

theorem extends_run (h : a.run ts = .ok fin) : a.tree.Extends fin.tree := by
  induction a, ts using Assembly.run.induct with
  | case1 a =>
      rw [Assembly.run_nil] at h
      cases h
      exact .refl _
  | case2 a t ts failure hread =>
      rw [Assembly.run_cons, hread] at h
      cases h
  | case3 a t ts s rest hread hlt ih =>
      rw [Assembly.run_cons, hread] at h
      exact (extends_apply a s).trans (ih h)

/-- Every module but the root has been opened. -/
theorem Reached.exists_opened (h : Reached ts a rest) {id : Nat}
    (hpos : root < id) (hid : id < a.tree.count) : ∃ b, Opened ts id b := by
  induction h with
  | start =>
      have hone : Assembly.start.tree.count = 1 := rfl
      rw [root] at hpos
      omega
  | @step a t us rest s hreached hread ih =>
      by_cases hold : id < a.tree.count
      · exact ih hold
      · by_cases hs : ∃ name site, s = .openModule name site
        · obtain ⟨name, site, rfl⟩ := hs
          have hle := (count_apply a (.openModule name site)).2
          obtain rfl : id = a.tree.count := by omega
          exact ⟨_, .intro hreached hread⟩
        · rw [count_apply_eq fun name site hs' => hs ⟨name, site, hs'⟩] at hid
          exact absurd hid hold

end

/-! ## Pre-order -/

/-- The modules of the tree have the numbers that a walk gives them, and
depths and paths that agree with the scopes open behind their opening
braces. -/
structure Preordered (ts : List Token) (tree : ModuleTree) : Prop where
  ids : tree.walk.map Prod.fst = List.range tree.count
  parent : ∀ id, id + 1 < tree.count →
    ∃ p, tree.parent? (id + 1) = some p ∧ tree.Encloses p id
  root : tree.walk.head? = some (ModuleTree.root, 0) ∧
    tree.path ModuleTree.root = ""
  opened : ∀ id, ModuleTree.root < id → id < tree.count →
    ∃ a, Opened ts id a
  depth : ∀ id a, Opened ts id a →
    tree.walk[id]? = some (id, a.openModules.length)
  path : ∀ id a, Opened ts id a →
    tree.path id = String.intercalate "::" a.openModules

section
variable {ts : List Token} {tree : ModuleTree}

/-- Behind its opening brace, the path of a module is that in the final
tree. -/
theorem Opened.segments {fin : Assembly} {id : Nat} {b : Assembly}
    (h : Opened ts id b) (hrun : Assembly.start.run ts = .ok fin)
    (hroot : fin.tree.parent? root = none)
    (hlt : ∀ id parent, id < fin.tree.count →
      fin.tree.parent? id = some parent → parent < id) :
    id < fin.tree.count ∧ fin.tree.segments id = b.openModules := by
  cases h with
  | @intro a t us rest name site hreached hread =>
      have hnext := hreached.step hread
      have hextends : (a.apply (.openModule name site)).tree.Extends
          fin.tree := extends_run (hnext.run_eq ▸ hrun)
      have hnested := hnext.wellScoped.nested (.inr rfl)
      have hfinal := hnested.mono hextends
      have hpos := Nat.lt_of_lt_of_le hnext.wellScoped.count_pos
        hextends.count_le
      exact ⟨hfinal.lt_count hpos, hfinal.segments hroot hlt⟩

/-- The modules of a parsed tree stand in pre-order. -/
theorem parse_preordered (h : parse ts = .ok tree) : Preordered ts tree := by
  obtain ⟨hnumbered, hroot⟩ := (source_of_parse h).numbered
  obtain ⟨fin, hrun, -, rfl⟩ := parse_eq_ok_iff.mp h
  have hlt : ∀ id parent, id < fin.tree.count →
      fin.tree.parent? id = some parent → parent < id :=
    fun id parent => hnumbered.parent_lt hroot
  have hsegments : fin.tree.segments root = [] := segments_of_none hroot
  exact {
    ids := by
      rw [hnumbered.walk hroot, List.map_map]
      exact List.map_id _
    parent := fun id hid => by
      obtain ⟨p, hp, -, hencloses⟩ := hnumbered.parent_encloses hid
      exact ⟨p, hp, hencloses⟩
    root := by
      have hhead := hnumbered.walk_getElem? hroot hnumbered.le
      rw [visit, hsegments] at hhead
      rw [List.head?_eq_getElem?, ModuleTree.path, hsegments]
      exact ⟨hhead, rfl⟩
    opened := fun id hid hid' =>
      (Reached.start.of_run hrun).exists_opened hid hid'
    depth := fun id a hopened => by
      obtain ⟨hid, hpath⟩ := hopened.segments hrun hroot hlt
      rw [hnumbered.walk_getElem? hroot hid, visit, hpath]
    path := fun id a hopened => by
      obtain ⟨-, hpath⟩ := hopened.segments hrun hroot hlt
      rw [ModuleTree.path, hpath] }

end

/-- The tokens of two modules, the first with a module in it. -/
def nestedThenSibling : List Token :=
  [⟨.identifier, "module", ⟨0, 6⟩⟩, ⟨.identifier, "A", ⟨7, 8⟩⟩,
    ⟨.openBrace, "", ⟨8, 9⟩⟩, ⟨.identifier, "module", ⟨9, 15⟩⟩,
    ⟨.identifier, "B", ⟨16, 17⟩⟩, ⟨.openBrace, "", ⟨17, 18⟩⟩,
    ⟨.closeBrace, "", ⟨18, 19⟩⟩, ⟨.closeBrace, "", ⟨19, 20⟩⟩,
    ⟨.identifier, "module", ⟨20, 26⟩⟩, ⟨.identifier, "C", ⟨27, 28⟩⟩,
    ⟨.openBrace, "", ⟨28, 29⟩⟩, ⟨.closeBrace, "", ⟨29, 30⟩⟩]

theorem preordered_nestedThenSibling :
    ∃ tree, parse nestedThenSibling = .ok tree ∧
      tree.walk = [(0, 0), (1, 1), (2, 2), (3, 1)] ∧
      Preordered nestedThenSibling tree := by
  have hrun : Assembly.start.run nestedThenSibling = .ok
      ⟨⟨#[⟨"", none, [1, 3], [], [], [], [], [], []⟩,
        ⟨"A", some 0, [2], [], [], [], [], [], []⟩,
        ⟨"B", some 1, [], [], [], [], [], [], []⟩,
        ⟨"C", some 0, [], [], [], [], [], [], []⟩], []⟩, root, []⟩ :=
    run_eq_of_runningFor (by decide +kernel)
  have hparse := parse_eq_ok_of_run hrun rfl
  exact ⟨_, hparse, rfl, parse_preordered hparse⟩

end Idl
