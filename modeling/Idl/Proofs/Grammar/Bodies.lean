import Idl.Parse
import Idl.Proofs.Grammar.Next
import Idl.Proofs.Module.Tree

/-!
# Bodies of declarations

A structure, an enumeration, an interface and a union are assembled in the
same way: the declaration goes into the current module without entries, the
scope that is opened refers to it by its place, and every entry is appended
there.  `Body` states this once.  What its laws give is that a body is a
sequence of entries and directives up to the closing brace, and that the
declaration then stands in the module as if it had been declared at once.
-/

namespace Idl

namespace Assembly

def direct (a : Assembly) (ds : List Directive) : Assembly :=
  { a with tree := ds.foldl ModuleTree.addDirective a.tree }

theorem direct_cons (a : Assembly) (d : Directive) (ds : List Directive) :
    a.direct (d :: ds) = (a.apply (.directive d)).direct ds := rfl

theorem apply_directive_declare (a : Assembly) (d : Directive)
    (e : Declaration) :
    (a.declare e).apply (.directive d) = (a.apply (.directive d)).declare e :=
  rfl

theorem direct_declare (a : Assembly) (ds : List Directive)
    (e : Declaration) : (a.declare e).direct ds = (a.direct ds).declare e := by
  induction ds generalizing a with
  | nil => rfl
  | cons d ds ih =>
      rw [direct_cons, direct_cons, apply_directive_declare, ih]

theorem modifyCurrent_declare {a : Assembly} {d e : Declaration}
    {change : ModuleDecl → ModuleDecl}
    (h : change (a.currentModule.declare d) = a.currentModule.declare e) :
    (a.declare d).modifyCurrent change = a.declare e := by
  have htree : (a.tree.modify a.current (·.declare d)).modify a.current change =
      a.tree.modify a.current (·.declare e) := by
    rw [ModuleTree.modify_modify]
    exact ModuleTree.modify_congr h
  simp only [modifyCurrent, declare, htree]

end Assembly

/-! ## Running over statements -/

namespace Grammar

theorem run_skipLines (a : Assembly) (ts : List Token) :
    a.run (skipLines ts) = a.run ts := by
  induction ts with
  | nil => rfl
  | cons t ts ih =>
      by_cases hkind : t.kind = .endLine
      · have hskip : readStatement a.scopeKind t ts = .ok (.skip, skipLines ts) := by
          simp only [readStatement, hkind]
        rw [skipLines_cons_endLine hkind, ih, Assembly.run_cons, hskip]
        exact ih.symm
      · have hsettled : skipLines (t :: ts) = t :: ts := settled_cons.mpr hkind
        rw [hsettled]

theorem Said.run {a : Assembly} {s : Statement} {ts rest : List Token}
    (h : Said a.scopeKind s ts rest) : a.run ts = (a.apply s).run rest := by
  obtain ⟨t, us, rest', rfl, hread, hrest⟩ := readStatement_of_said h
  rw [Assembly.run_cons, hread]
  simp only
  rw [← run_skipLines, hrest, run_skipLines]

theorem said_of_run {a fin : Assembly} {t : Token} {ts : List Token}
    (h : a.run (t :: ts) = .ok fin) :
    ∃ s rest, Said a.scopeKind s (t :: ts) rest ∧
      rest.length < (t :: ts).length ∧ (a.apply s).run rest = .ok fin := by
  rw [Assembly.run_cons] at h
  cases hread : readStatement a.scopeKind t ts with
  | error failure =>
      rw [hread] at h
      cases h
  | ok result =>
      rcases result with ⟨s, rest⟩
      rw [hread] at h
      have hlength := readStatement_length_le hread
      exact ⟨s, rest, said_of_readStatement hread,
        Nat.lt_succ_of_le hlength, h⟩

/-! ## Bodies -/

/-- A sort of declaration with a body of entries, with what the assembly does
for it. -/
structure Body (α : Type) where
  kind : ScopeKind
  entry : α → Phrase
  say : α → Statement
  declaration : List α → Declaration
  target : ModuleDecl → Target
  nested : kind ≠ .global
  kind_target : ∀ m, (target m).kind = kind
  not_module : ∀ m id, target m ≠ .module id
  worded : ∀ {s ts rest}, Worded kind s ts rest ↔
    ∃ x, s = say x ∧ entry x ts rest
  apply_say : ∀ (a : Assembly) (name : String) (site : Span) (xs : List α)
    (x : α),
    ((a.declare (declaration xs)).openScope (target a.currentModule) name
      site).apply (say x) =
      (a.declare (declaration (xs ++ [x]))).openScope
        (target a.currentModule) name site

namespace Body

variable {α : Type} (body : Body α) (a : Assembly) (name : String)
  (site : Span)

def inside (xs : List α) : Assembly :=
  (a.declare (body.declaration xs)).openScope (body.target a.currentModule)
    name site

theorem scopeKind_inside (xs : List α) :
    (body.inside a name site xs).scopeKind = body.kind :=
  body.kind_target _

theorem scopes_inside_ne_nil (xs : List α) :
    (body.inside a name site xs).scopes ≠ [] := by
  simp [inside, Assembly.openScope]

theorem apply_directive_inside (xs : List α) (d : Directive) :
    (body.inside a name site xs).apply (.directive d) =
      body.inside (a.apply (.directive d)) name site xs := rfl

theorem apply_say_inside (xs : List α) (x : α) :
    (body.inside a name site xs).apply (body.say x) =
      body.inside a name site (xs ++ [x]) :=
  body.apply_say a name site xs x

theorem apply_close_inside (xs : List α) :
    (body.inside a name site xs).apply .close =
      a.declare (body.declaration xs) := by
  simp only [inside, Assembly.apply, Assembly.close, Assembly.openScope]
  split
  next id hid => exact absurd hid (body.not_module _ id)
  next => rfl

end Body

/-! ## The four sorts of bodies -/

section
variable (m : ModuleDecl) (name : String)

theorem modify_length_append {α : Type} (xs : List α) (x : α) (f : α → α) :
    (xs ++ [x]).modify xs.length f = xs ++ [f x] := by
  induction xs with
  | nil => rfl
  | cons y ys ih => simp [ih]

theorem addMember_declare (bases : List String) (xs : List Member)
    (x : Member) :
    (m.declare (.struct ⟨name, bases, xs⟩)).addMember m.structs.length x =
      m.declare (.struct ⟨name, bases, xs ++ [x]⟩) := by
  simp [ModuleDecl.declare, ModuleDecl.addMember, modify_length_append]

theorem addEnumerator_declare (xs : List String) (x : String) :
    (m.declare (.enum ⟨name, xs⟩)).addEnumerator m.enums.length x =
      m.declare (.enum ⟨name, xs ++ [x]⟩) := by
  simp [ModuleDecl.declare, ModuleDecl.addEnumerator, modify_length_append]

theorem addMethod_declare (bases : List String) (xs : List Method)
    (x : Method) :
    (m.declare (.interface ⟨name, bases, xs⟩)).addMethod
        m.interfaces.length x =
      m.declare (.interface ⟨name, bases, xs ++ [x]⟩) := by
  simp [ModuleDecl.declare, ModuleDecl.addMethod, modify_length_append]

theorem addCase_declare (discriminant : TypeRef) (xs : List UnionCase)
    (x : UnionCase) :
    (m.declare (.union ⟨name, discriminant, xs⟩)).addCase
        m.unions.length x =
      m.declare (.union ⟨name, discriminant, xs ++ [x]⟩) := by
  simp [ModuleDecl.declare, ModuleDecl.addCase, modify_length_append]

end

def structBody (name : String) (bases : List String) : Body Member where
  kind := .struct
  entry := Field
  say := .member
  declaration xs := .struct ⟨name, bases, xs⟩
  target m := .struct m.structs.length
  nested := by decide
  kind_target _ := rfl
  not_module _ _ := by simp
  worded := by
    intro s ts rest
    constructor
    · intro h
      cases h with
      | declaring hscope => simp at hscope
      | member hfield => exact ⟨_, rfl, hfield⟩
    · intro hparts
      rcases hparts with ⟨m, rfl, hfield⟩
      exact .member hfield
  apply_say a opened site xs x :=
    congrArg (Assembly.openScope · _ opened site)
      (Assembly.modifyCurrent_declare
        (addMember_declare a.currentModule name bases xs x))

def enumBody (name : String) : Body String where
  kind := .enum
  entry := Enumerator
  say := .enumerator
  declaration xs := .enum ⟨name, xs⟩
  target m := .enum m.enums.length
  nested := by decide
  kind_target _ := rfl
  not_module _ _ := by simp
  worded := by
    intro s ts rest
    constructor
    · intro h
      cases h with
      | declaring hscope => simp at hscope
      | enumerator henumerator => exact ⟨_, rfl, henumerator⟩
    · intro hparts
      rcases hparts with ⟨x, rfl, henumerator⟩
      exact .enumerator henumerator
  apply_say a opened site xs x :=
    congrArg (Assembly.openScope · _ opened site)
      (Assembly.modifyCurrent_declare
        (addEnumerator_declare a.currentModule name xs x))

def interfaceBody (name : String) (bases : List String) : Body Method where
  kind := .interface
  entry := Called
  say := .method
  declaration xs := .interface ⟨name, bases, xs⟩
  target m := .interface m.interfaces.length
  nested := by decide
  kind_target _ := rfl
  not_module _ _ := by simp
  worded := by
    intro s ts rest
    constructor
    · intro h
      cases h with
      | declaring hscope => simp at hscope
      | method hcalled => exact ⟨_, rfl, hcalled⟩
    · intro hparts
      rcases hparts with ⟨m, rfl, hcalled⟩
      exact .method hcalled
  apply_say a opened site xs x :=
    congrArg (Assembly.openScope · _ opened site)
      (Assembly.modifyCurrent_declare
        (addMethod_declare a.currentModule name bases xs x))

def unionBody (name : String) (discriminant : TypeRef) : Body UnionCase where
  kind := .union
  entry := Selected
  say := .unionCase
  declaration xs := .union ⟨name, discriminant, xs⟩
  target m := .union m.unions.length
  nested := by decide
  kind_target _ := rfl
  not_module _ _ := by simp
  worded := by
    intro s ts rest
    constructor
    · intro h
      cases h with
      | declaring hscope => simp at hscope
      | unionCase hselected => exact ⟨_, rfl, hselected⟩
    · intro hparts
      rcases hparts with ⟨c, rfl, hselected⟩
      exact .unionCase hselected
  apply_say a opened site xs x :=
    congrArg (Assembly.openScope · _ opened site)
      (Assembly.modifyCurrent_declare
        (addCase_declare a.currentModule name discriminant xs x))

/-! ## Running over a body -/

section
variable {α : Type} (body : Body α)

theorem Body.entries_run {xs : List α} {ds : List Directive}
    {ts rest : List Token} (h : Entries body.entry xs ds ts rest)
    (a : Assembly) (name : String) (site : Span) (ys : List α) :
    (body.inside a name site ys).run ts =
      (body.inside (a.direct ds) name site (ys ++ xs)).run rest := by
  induction h generalizing a ys with
  | nil =>
      rw [List.append_nil]
      rfl
  | @ignored xs ds t a' b hignored _ ih =>
      have hsaid : Said (body.inside a name site ys).scopeKind .skip
          (t :: ([] ++ a')) a' := .skip hignored (by simp [LineEnds])
      rw [← ih]
      exact hsaid.run
  | directive hdirective _ ih =>
      rw [(Said.directive hdirective).run, body.apply_directive_inside, ih,
        Assembly.direct_cons]
  | @entry x xs ds a' b c hentry _ ih =>
      have hworded : Worded (body.inside a name site ys).scopeKind (body.say x)
          a' b := by
        rw [body.scopeKind_inside]
        exact body.worded.mpr ⟨x, rfl, hentry⟩
      rw [(Said.worded hworded).run, body.apply_say_inside, ih,
        List.append_assoc, List.singleton_append]

/-- Behind its closing brace the declaration stands in the module, with all
its entries. -/
theorem Body.run {xs : List α} {ds : List Directive} {ts mid rest : List Token}
    (hbody : Entries body.entry xs ds ts mid)
    (hclose : Mark .closeBrace mid rest) (a : Assembly) (name : String)
    (site : Span) :
    (body.inside a name site []).run ts =
      ((a.declare (body.declaration xs)).direct ds).run rest := by
  have hsaid : Said (body.inside (a.direct ds) name site xs).scopeKind .close
      mid rest := by
    rw [body.scopeKind_inside]
    exact .close body.nested hclose
  rw [body.entries_run hbody, List.nil_append, hsaid.run,
    body.apply_close_inside, Assembly.direct_declare]

theorem Entries.lineEnds_append {entry : α → Phrase} {xs : List α}
    {ds : List Directive} {ls ts rest : List Token} (hls : LineEnds ls)
    (h : Entries entry xs ds ts rest) : Entries entry xs ds (ls ++ ts) rest := by
  induction ls with
  | nil => exact h
  | cons l ls ih =>
      have hl : l.kind = .endLine := hls l (by simp)
      have hmore : LineEnds ls := fun t ht => hls t (by simp [ht])
      exact .ignored (by simp [Ignored, hl]) (ih hmore)

/-- A run from inside a body that ends outside all scopes has read entries up
to a closing brace. -/
theorem Body.entries_of_run {fin : Assembly} (hfin : fin.scopes = [])
    (name : String) (site : Span) :
    ∀ (ts : List Token) (a : Assembly) (ys : List α),
      (body.inside a name site ys).run ts = .ok fin →
        ∃ xs ds mid rest, Entries body.entry xs ds ts mid ∧
          Mark .closeBrace mid rest ∧ rest.length < ts.length ∧
            ((a.declare (body.declaration (ys ++ xs))).direct ds).run rest =
              .ok fin := by
  intro ts
  induction hlength : ts.length using Nat.strongRecOn generalizing ts with
  | ind n ih =>
      intro a ys h
      cases ts with
      | nil =>
          rw [Assembly.run_nil] at h
          cases h
          exact absurd hfin (body.scopes_inside_ne_nil a name site ys)
      | cons t ts =>
          obtain ⟨s, rest, hsaid, hlt, hrun⟩ := said_of_run h
          rw [body.scopeKind_inside] at hsaid
          cases hsaid with
          | @directive d _ _ hdirective =>
              rw [body.apply_directive_inside] at hrun
              obtain ⟨xs, ds, mid, rest', hxs, hclose, hlt', hrest⟩ :=
                ih rest.length (by omega) rest rfl _ _ hrun
              refine ⟨xs, d :: ds, mid, rest', .directive hdirective hxs,
                hclose, by omega, ?_⟩
              rwa [Assembly.direct_cons, Assembly.apply_directive_declare]
          | @skip _ ls _ hignored hls =>
              obtain ⟨xs, ds, mid, rest', hxs, hclose, hlt', hrest⟩ :=
                ih rest.length (by omega) rest rfl _ _ hrun
              exact ⟨xs, ds, mid, rest',
                .ignored hignored (hxs.lineEnds_append hls), hclose, by omega,
                hrest⟩
          | close _ hclose =>
              rw [body.apply_close_inside] at hrun
              refine ⟨[], [], _, rest, .nil, hclose, by omega, ?_⟩
              rwa [List.append_nil]
          | worded hworded =>
              obtain ⟨x, rfl, hentry⟩ := body.worded.mp hworded
              rw [body.apply_say_inside] at hrun
              obtain ⟨xs, ds, mid, rest', hxs, hclose, hlt', hrest⟩ :=
                ih rest.length (by omega) rest rfl _ _ hrun
              refine ⟨x :: xs, ds, mid, rest', .entry hentry hxs, hclose,
                by omega, ?_⟩
              rwa [List.append_assoc, List.singleton_append] at hrest

end

end Grammar

end Idl
