import Idl.Proofs.Assembly.Prefix
import Idl.Proofs.Assembly.Scopes
import Idl.Proofs.Grammar.Acceptance
import Idl.Proofs.Module.Merge
import Idl.Proofs.Reading.Resumption

/-!
# Parsing streams one behind the other

Behind a stream that parses and does not end with a word the run goes on with
the next stream as if it began there: what the last statement may still take
is ignored anyway.  The state then differs from the one at the start in its
tree alone.

Which faults occur depends on the scopes that are open and not on the tree, so
a stream that fails fails in the same way.  A stream that parses is a list of
items, and placed behind another tree they make the merged tree, as the two
trees grow in step.
-/

namespace Idl

open Grammar ModuleTree

/-! ## The seam -/

section
variable {a c : Assembly} {ts us vs : List Token}

/-- Ignored tokens make no difference to a run. -/
theorem run_of_passes (h : Passes us vs) : a.run us = a.run vs := by
  obtain ⟨js, rfl, hjs⟩ := h
  induction js with
  | nil => rfl
  | cons j js ih =>
      obtain ⟨hj, hjs⟩ := List.forall_mem_cons.mp hjs
      have hsaid : Said a.scopeKind .skip (j :: ([] ++ (js ++ vs)))
          (js ++ vs) := .skip hj nofun
      exact hsaid.run.trans (ih hjs)

/-- A run over a stream that does not end with a word goes on with whatever
follows. -/
theorem run_append (h : a.run ts = .ok c) (hsealed : Sealed ts)
    (us : List Token) : a.run (ts ++ us) = c.run us := by
  induction a, ts using Assembly.run.induct with
  | case1 a =>
      rw [Assembly.run_nil] at h
      cases h
      rfl
  | case2 a t ts failure hread =>
      rw [Assembly.run_cons, hread] at h
      cases h
  | case3 a t ts s rest hread hlt ih =>
      rw [Assembly.run_cons, hread] at h
      by_cases hrest : rest = []
      · subst hrest
        obtain ⟨vs, hvs, hpasses⟩ := readStatement_resumed hread hsealed us
        simp only [Assembly.run_nil] at h
        cases h
        rw [List.cons_append, run_eq_of_readStatement hvs,
          run_of_passes hpasses]
      · have hlocal := (Composed.nextStatement a.scopeKind).isLocal
        have hnext : nextStatement a.scopeKind (t :: ts) =
            .ok (s, rest) := hread
        have hmore : readStatement a.scopeKind t (ts ++ us) =
            .ok (s, rest ++ us) := hlocal.append_ok hnext hrest us
        rw [List.cons_append, run_eq_of_readStatement hmore]
        exact ih h (hsealed.of_suffix (hlocal.suffix_ok hnext) hrest)

end

/-! ## Runs that differ in their trees -/

/-- What a missing brace would be reported with, for each open scope. -/
def Assembly.outline (a : Assembly) : List (ScopeKind × String × Span) :=
  a.scopes.map fun scope => (scope.target.kind, scope.name, scope.site)

/-- What a statement does to the open scopes. -/
def Statement.outline (s : Statement)
    (below : List (ScopeKind × String × Span)) :
    List (ScopeKind × String × Span) :=
  match s with
  | .openModule name site => (.module, name, site) :: below
  | .openStruct name _ site => (.struct, name, site) :: below
  | .openEnum name site => (.enum, name, site) :: below
  | .openInterface name _ site => (.interface, name, site) :: below
  | .openUnion name _ site => (.union, name, site) :: below
  | .close => below.tail
  | _ => below

section
variable {a b : Assembly}

theorem outline_fill (change : Target → ModuleDecl → ModuleDecl) :
    (a.fill change).outline = a.outline := by
  rw [Assembly.outline, scopes_fill, Assembly.outline]

theorem outline_close : a.close.outline = a.outline.tail := by
  unfold Assembly.close Assembly.outline
  split
  next hscopes => rw [hscopes]; rfl
  next hscopes =>
    rw [hscopes]
    split <;> rfl

theorem outline_apply (a : Assembly) (s : Statement) :
    (a.apply s).outline = s.outline a.outline := by
  cases s with
  | close => exact outline_close
  | member => exact outline_fill _
  | enumerator => exact outline_fill _
  | method => exact outline_fill _
  | unionCase => exact outline_fill _
  | _ => rfl

theorem scopeKind_eq_of_outline (h : a.outline = b.outline) :
    a.scopeKind = b.scopeKind := by
  unfold Assembly.outline at h
  unfold Assembly.scopeKind
  cases hscopes : a.scopes with
  | nil =>
      rw [hscopes] at h
      rw [List.map_eq_nil_iff.mp h.symm]
  | cons scope scopes =>
      rw [hscopes] at h
      cases hscopes' : b.scopes with
      | nil =>
          rw [hscopes'] at h
          cases h
      | cons scope' scopes' =>
          rw [hscopes'] at h
          exact (Prod.mk.inj (List.cons.inj h).1).1

/-- Runs from states with the same scopes fail with the same fault, or end
with the same scopes. -/
theorem outline_run (h : a.outline = b.outline) (ts : List Token) :
    (a.run ts).map Assembly.outline = (b.run ts).map Assembly.outline := by
  induction a, ts using Assembly.run.induct generalizing b with
  | case1 a =>
      rw [Assembly.run_nil, Assembly.run_nil]
      exact congrArg Except.ok h
  | case2 a t ts failure hread =>
      rw [Assembly.run_cons, Assembly.run_cons, ← scopeKind_eq_of_outline h,
        hread]
  | case3 a t ts s rest hread hlt ih =>
      have hnext : (a.apply s).outline = (b.apply s).outline := by
        rw [outline_apply, outline_apply, h]
      rw [Assembly.run_cons, Assembly.run_cons, ← scopeKind_eq_of_outline h,
        hread]
      exact ih hnext

end

/-! ## Placing behind a tree -/

section
variable {t : ModuleTree}

theorem foldl_addDirective_merge (ds : List Directive) (u : ModuleTree) :
    ds.foldl addDirective (t.merge u) = t.merge (ds.foldl addDirective u) := by
  induction ds generalizing u with
  | nil => rfl
  | cons d ds ih =>
      rw [List.foldl_cons, ← merge_addDirective, ih]
      rfl

mutual
theorem placeItem_merge (ht : 0 < t.count) (id : Nat) (u : ModuleTree)
    (hid : id < u.count) :
    ∀ i, placeItem (shiftId (t.count - 1) id) (t.merge u) i =
      t.merge (placeItem id u i)
  | .directive d => (merge_addDirective d).symm
  | .declaration d inner => by
      rw [placeItem, placeItem, merge_declare ht hid, foldl_addDirective_merge]
  | .module name body => by
      have hu : 0 < u.count := Nat.lt_of_le_of_lt (Nat.zero_le _) hid
      have hinner : u.count < (u.addChild id name).count := by simp
      rw [placeItem, placeItem, merge_addChild ht hid,
        count_merge_eq_shiftId ht hu]
      exact placeItems_merge ht u.count _ hinner body
theorem placeItems_merge (ht : 0 < t.count) (id : Nat) (u : ModuleTree)
    (hid : id < u.count) :
    ∀ is, placeItems (shiftId (t.count - 1) id) (t.merge u) is =
      t.merge (placeItems id u is)
  | [] => rfl
  | i :: is => by
      have hle := (extends_placeItem id u i).count_le
      rw [placeItems, placeItems, placeItem_merge ht id u hid i]
      exact placeItems_merge ht id _ (Nat.lt_of_lt_of_le hid hle) is
end

/-- The items of a source make the merged tree where another tree has been
built before. -/
theorem placeItems_root_merge (ht : 0 < t.count) (is : List Item) :
    placeItems root t is = t.merge (placeItems root .empty is) := by
  have hplace := placeItems_merge ht root .empty (by decide) is
  rwa [shiftId_root, merge_empty ht] at hplace

end

/-! ## Concatenation -/

section
variable {a b : List Token} {t : ModuleTree}

theorem endOffset_append (hb : b ≠ []) : endOffset (a ++ b) = endOffset b := by
  rw [endOffset, List.getLast?_append, endOffset,
    List.getLast?_eq_some_getLast hb]
  rfl

theorem run_of_parse (h : parse a = .ok t) :
    Assembly.start.run a = .ok ⟨t, root, []⟩ := by
  obtain ⟨fin, hrun, hscopes, rfl⟩ := parse_eq_ok_iff.mp h
  have hwell := (Reached.start.of_run hrun).wellScoped
  have hglobal : fin.scopeKind = .global := by
    rw [Assembly.scopeKind, hscopes]
  have hnested := hwell.nested (.inl hglobal)
  rw [hscopes] at hnested
  rcases fin with ⟨tree, current, scopes⟩
  cases hnested
  cases hscopes
  exact hrun

/-- A fault depends on how the run fails, or on the scopes that it leaves
open. -/
theorem parse_eq_error_iff {ts : List Token} {e : ParseError} :
    parse ts = .error e ↔
      (∃ failure,
        (Assembly.start.run ts).map Assembly.outline = .error failure ∧
          e = failure.report (endOffset ts)) ∨
      ∃ kind name site below,
        (Assembly.start.run ts).map Assembly.outline =
          .ok ((kind, name, site) :: below) ∧
            e = ⟨.unclosedScope kind name, site⟩ := by
  unfold parse
  cases Assembly.start.run ts with
  | error failure => simp [Except.map, eq_comm]
  | ok fin =>
      cases hscopes : fin.scopes with
      | nil => simp [Except.map, Assembly.outline, hscopes]
      | cons scope scopes =>
          simp [Except.map, Assembly.outline, hscopes, Scope.unclosed, eq_comm]

/-- Two streams one behind the other parse to the merged tree, and fail as the
second one does. -/
theorem parse_append (h : parse a = .ok t)
    (hsealed : ∀ x ∈ a.getLast?, x.kind ≠ .identifier) (b : List Token) :
    parse (a ++ b) = (parse b).map t.merge := by
  have hrun := run_of_parse h
  have hseam := run_append hrun hsealed b
  have hcount : 0 < t.count :=
    (Reached.start.of_run hrun).wellScoped.count_pos
  cases hb : parse b with
  | ok u =>
      obtain ⟨is, his, rfl⟩ := source_of_parse hb
      have hitems : Assembly.run ⟨t, root, []⟩ b =
          .ok (placed ⟨t, root, []⟩ is) := by
        rw [his.run (.inl rfl), Assembly.run_nil]
      rw [hitems] at hseam
      rw [parse_eq_ok_of_run hseam rfl]
      exact congrArg Except.ok (placeItems_root_merge hcount is)
  | error e =>
      have hne : b ≠ [] := by
        rintro rfl
        rw [parse, Assembly.run_nil] at hb
        cases hb
      have houtline : Assembly.outline ⟨t, root, []⟩ =
          Assembly.start.outline := rfl
      have hsame := outline_run houtline b
      rw [← hseam] at hsame
      have herror := parse_eq_error_iff.mp hb
      rw [← hsame, ← endOffset_append (a := a) hne] at herror
      exact parse_eq_error_iff.mpr herror

end

/-- The tokens of a module with a module in it. -/
def nestedModule : List Token :=
  [⟨.identifier, "module", ⟨0, 6⟩⟩, ⟨.identifier, "A", ⟨7, 8⟩⟩,
    ⟨.openBrace, "", ⟨8, 9⟩⟩, ⟨.identifier, "module", ⟨9, 15⟩⟩,
    ⟨.identifier, "B", ⟨16, 17⟩⟩, ⟨.openBrace, "", ⟨17, 18⟩⟩,
    ⟨.closeBrace, "", ⟨18, 19⟩⟩, ⟨.closeBrace, "", ⟨19, 20⟩⟩]

theorem parse_append_nestedModule :
    parse nestedModule = .ok
      ⟨#[⟨"", none, [1], [], [], [], [], [], []⟩,
        ⟨"A", some 0, [2], [], [], [], [], [], []⟩,
        ⟨"B", some 1, [], [], [], [], [], [], []⟩], []⟩ ∧
    (∀ x ∈ nestedModule.getLast?, x.kind ≠ .identifier) ∧
    parse (nestedModule ++ nestedModule) = .ok
      ⟨#[⟨"", none, [1, 3], [], [], [], [], [], []⟩,
        ⟨"A", some 0, [2], [], [], [], [], [], []⟩,
        ⟨"B", some 1, [], [], [], [], [], [], []⟩,
        ⟨"A", some 0, [4], [], [], [], [], [], []⟩,
        ⟨"B", some 3, [], [], [], [], [], [], []⟩], []⟩ := by
  have hrun : Assembly.start.run nestedModule = .ok
      ⟨⟨#[⟨"", none, [1], [], [], [], [], [], []⟩,
        ⟨"A", some 0, [2], [], [], [], [], [], []⟩,
        ⟨"B", some 1, [], [], [], [], [], [], []⟩], []⟩, root, []⟩ :=
    run_eq_of_runningFor (by decide +kernel)
  have hparse := parse_eq_ok_of_run hrun rfl
  have hsealed : ∀ x ∈ nestedModule.getLast?, x.kind ≠ .identifier := by
    decide
  have happend := parse_append hparse hsealed nestedModule
  rw [hparse] at happend
  exact ⟨hparse, hsealed, happend.trans (by decide +kernel)⟩

end Idl
