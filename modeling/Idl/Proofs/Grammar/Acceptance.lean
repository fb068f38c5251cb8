import Idl.Proofs.Grammar.Bodies

/-!
# Parsing accepts exactly the grammar

The assembly runs over a flat list of statements with a stack of scopes; the
grammar nests bodies and has no stack.  Both directions go through the state
behind a body.  A derivation of items takes the run from one state of a module
to another with only the tree changed, by induction on the derivation.  A run
that ends outside all scopes has read a derivation up to the brace that closes
the module, by induction on the length of the stream; what lies behind that
brace is the run of the module around.
-/

namespace Idl.Grammar

/-! ## Placing items -/

theorem extends_foldl_addDirective (ds : List Directive) (t : ModuleTree) :
    t.Extends (ds.foldl ModuleTree.addDirective t) := by
  induction ds generalizing t with
  | nil => exact .refl t
  | cons d ds ih => exact (ModuleTree.extends_addDirective d).trans (ih _)

mutual
theorem extends_placeItem (id : Nat) (t : ModuleTree) :
    ∀ i, t.Extends (placeItem id t i)
  | .directive d => ModuleTree.extends_addDirective d
  | .declaration d inner =>
      (ModuleTree.extends_declare d).trans (extends_foldl_addDirective inner _)
  | .module name body =>
      (ModuleTree.extends_addChild name).trans
        (extends_placeItems t.count _ body)
theorem extends_placeItems (id : Nat) (t : ModuleTree) :
    ∀ is, t.Extends (placeItems id t is)
  | [] => .refl t
  | i :: is => (extends_placeItem id t i).trans (extends_placeItems id _ is)
end

def InModule (a : Assembly) : Prop :=
  a.scopeKind = .global ∨ a.scopeKind = .module

def placed (a : Assembly) (is : List Item) : Assembly :=
  { a with tree := placeItems a.current a.tree is }

theorem inModule_openModule (a : Assembly) (name : String) (site : Span) :
    InModule (a.openModule name site) :=
  .inr rfl

/-- Behind the closing brace of a module the one around it is current, with
the module placed in it. -/
theorem close_placed_openModule (a : Assembly) (name : String) (site : Span)
    (body : List Item) :
    (placed (a.openModule name site) body).apply .close =
      placed a [.module name body] := by
  have hextends := extends_placeItems a.tree.count
    (a.tree.addChild a.current name) body
  have hparent : (placeItems a.tree.count (a.tree.addChild a.current name)
      body).parent? a.tree.count = some a.current := by
    rw [hextends.parent? a.tree.count (by simp),
      ModuleTree.parent?_addChild_self]
  simp only [placed, Assembly.apply, Assembly.close, Assembly.openModule,
    hparent, Option.getD_some, placeItems, placeItem]

theorem placed_cons (a : Assembly) (i : Item) (is : List Item) :
    placed (placed a [i]) is = placed a (i :: is) := rfl

theorem placed_declaration (a : Assembly) (d : Declaration)
    (ds : List Directive) :
    placed a [.declaration d ds] = (a.declare d).direct ds := rfl

theorem parse_eq_ok_iff {ts : List Token} {tree : ModuleTree} :
    parse ts = .ok tree ↔
      ∃ fin, Assembly.start.run ts = .ok fin ∧ fin.scopes = [] ∧
        fin.tree = tree := by
  unfold parse
  cases Assembly.start.run ts with
  | error failure => simp
  | ok fin =>
      cases hscopes : fin.scopes with
      | nil => simp [hscopes]
      | cons scope scopes => simp [hscopes]

/-! ## A derivation is run -/

theorem run_stated (keyword : Keyword) {a : Assembly} {s : Statement}
    {ts mid rest : List Token} (ha : InModule a)
    (hword : Word keyword.word ts mid) (hstated : Stated keyword s mid rest) :
    a.run ts = (a.apply s).run rest :=
  (Said.worded (.declaring ha hword hstated)).run

theorem DeclaredItem.run {a : Assembly} (ha : InModule a) {d : Declaration}
    {ds : List Directive} {ts rest : List Token}
    (h : DeclaredItem d ds ts rest) :
    a.run ts = (placed a [.declaration d ds]).run rest := by
  rw [placed_declaration]
  cases h with
  | typedef hword hfield => exact run_stated .typedef ha hword (.typedef hfield)
  | constant hword htype hname hequals hvalue hend =>
      exact run_stated .const ha hword (.constant htype hname hequals hvalue hend)
  | forward hword hname hend => exact run_stated .interface ha hword (.forward hname hend)
  | @struct name bases _ _ _ _ _ _ _ hword hname hbases hbody =>
      rcases hbody with ⟨hopen, hentries, hclose⟩
      rw [run_stated .struct ha hword (.struct hname hbases hopen)]
      exact (structBody name bases).run hentries hclose a name _
  | @enum name _ _ _ _ _ _ hword hname hbody =>
      rcases hbody with ⟨hopen, hentries, hclose⟩
      rw [run_stated .enum ha hword (.enum hname hopen)]
      exact (enumBody name).run hentries hclose a name _
  | @interface name bases _ _ _ _ _ _ _ hword hname hbases hbody =>
      rcases hbody with ⟨hopen, hentries, hclose⟩
      rw [run_stated .interface ha hword (.interface hname hbases hopen)]
      exact (interfaceBody name bases).run hentries hclose a name _
  | @union name t _ _ _ _ _ _ _ _ _ _ hword hname hswitch hround htype hclosed
      hbody =>
      rcases hbody with ⟨hopen, hentries, hclose⟩
      rw [run_stated .union ha hword (.union hname hswitch hround htype hclosed hopen)]
      exact (unionBody name t).run hentries hclose a name _

theorem Items.run {is : List Item} {ts rest : List Token}
    (h : Items is ts rest) {a : Assembly} (ha : InModule a) :
    a.run ts = (placed a is).run rest := by
  induction h generalizing a with
  | nil => rfl
  | @ignored is t b c hignored _ ih =>
      have hsaid : Said a.scopeKind .skip (t :: ([] ++ b)) b :=
        .skip hignored (by simp [LineEnds])
      rw [← ih ha]
      exact hsaid.run
  | @directive d is b c e hdirective _ ih =>
      have hnext : InModule (placed a [.directive d]) := ha
      rw [(Said.directive hdirective).run, ← placed_cons]
      exact ih hnext
  | @declaration d ds is b c e hdeclaration _ ih =>
      have hnext : InModule (placed a [.declaration d ds]) := ha
      rw [hdeclaration.run ha, ih hnext, placed_cons]
  | @module name body is b c d e f g k hword hname hopen _ hclose _ ihbody ih =>
      have hinside := inModule_openModule a name (siteAhead c)
      have hnext : InModule (placed a [.module name body]) := ha
      have hsaid : Said (placed (a.openModule name (siteAhead c)) body).scopeKind
          .close f g := .close (fun h => by cases h) hclose
      rw [run_stated .module ha hword (.module hname hopen)]
      change (a.openModule name (siteAhead c)).run e = _
      rw [ihbody hinside, hsaid.run, close_placed_openModule, ih hnext,
        placed_cons]

/-! ## A run has a derivation -/

theorem Items.lineEnds_append {is : List Item} {ls ts rest : List Token}
    (hls : LineEnds ls) (h : Items is ts rest) : Items is (ls ++ ts) rest := by
  induction ls with
  | nil => exact h
  | cons l ls ih =>
      have hl : l.kind = .endLine := hls l (by simp)
      have hmore : LineEnds ls := fun t ht => hls t (by simp [ht])
      exact .ignored (by simp [Ignored, hl]) (ih hmore)

theorem Worded.declaring_of_inModule {a : Assembly} {s : Statement}
    {ts rest : List Token} (h : Worded a.scopeKind s ts rest)
    (ha : InModule a) :
    ∃ keyword mid, Word (Keyword.word keyword) ts mid ∧
      Stated keyword s mid rest := by
  have hscope : ∀ scope, Worded scope s ts rest →
      scope = .global ∨ scope = .module →
        ∃ keyword mid, Word (Keyword.word keyword) ts mid ∧
          Stated keyword s mid rest := by
    intro scope h hscope
    cases h with
    | declaring _ hword hstated => exact ⟨_, _, hword, hstated⟩
    | member => simp at hscope
    | enumerator => simp at hscope
    | method => simp at hscope
    | unionCase => simp at hscope
  exact hscope _ h ha

theorem declaredItem_of_run {a fin : Assembly} (hfin : fin.scopes = [])
    {keyword : Keyword} {s : Statement} {ts mid rest : List Token}
    (hword : Word keyword.word ts mid) (hstated : Stated keyword s mid rest)
    (h : (a.apply s).run rest = .ok fin) :
    (∃ d ds rest', DeclaredItem d ds ts rest' ∧
      rest'.length ≤ rest.length ∧
        (placed a [.declaration d ds]).run rest' = .ok fin) ∨
    (∃ name b, Word "module" ts mid ∧ DeclaredText name mid b ∧
      Mark .openBrace b rest ∧ s = .openModule name (siteAhead mid)) := by
  cases hstated with
  | @module name _ b _ hname hopen =>
      exact .inr ⟨name, b, hword, hname, hopen, rfl⟩
  | typedef hfield =>
      exact .inl ⟨_, _, rest, .typedef hword hfield, Nat.le_refl _, h⟩
  | constant htype hname hequals hvalue hend =>
      exact .inl ⟨_, _, rest, .constant hword htype hname hequals hvalue hend,
        Nat.le_refl _, h⟩
  | forward hname hend =>
      exact .inl ⟨_, _, rest, .forward hword hname hend, Nat.le_refl _, h⟩
  | @struct name bases _ _ _ _ hname hbases hopen =>
      rcases (structBody name bases).entries_of_run hfin name _ rest a [] h with
        ⟨ms, ds, e, rest', hentries, hclose, hlt, hrun⟩
      exact .inl ⟨_, ds, rest', .struct hword hname hbases
        ⟨hopen, hentries, hclose⟩, Nat.le_of_lt hlt, hrun⟩
  | @enum name _ _ _ hname hopen =>
      rcases (enumBody name).entries_of_run hfin name _ rest a [] h with
        ⟨names, ds, e, rest', hentries, hclose, hlt, hrun⟩
      exact .inl ⟨_, ds, rest', .enum hword hname
        ⟨hopen, hentries, hclose⟩, Nat.le_of_lt hlt, hrun⟩
  | @interface name bases _ _ _ _ hname hbases hopen =>
      obtain ⟨ms, ds, e, rest', hentries, hclose, hlt, hrun⟩ :=
        (interfaceBody name bases).entries_of_run hfin name _ rest a [] h
      exact .inl ⟨_, ds, rest', .interface hword hname hbases
        ⟨hopen, hentries, hclose⟩, Nat.le_of_lt hlt, hrun⟩
  | @union name t _ _ _ _ _ _ _ hname hswitch hround htype hclosed hopen =>
      rcases (unionBody name t).entries_of_run hfin name _ rest a [] h with
        ⟨cs, ds, e, rest', hentries, hclose, hlt, hrun⟩
      exact .inl ⟨_, ds, rest', .union hword hname hswitch hround htype hclosed
        ⟨hopen, hentries, hclose⟩, Nat.le_of_lt hlt, hrun⟩

/-- How a run ends that has read items from a state of a module: at the end
of the stream, or with the brace that closes the module. -/
def Ends (fin a : Assembly) (n : Nat) (is : List Item) (mid : List Token) :
    Prop :=
  (mid = [] ∧ placed a is = fin) ∨
    ∃ rest, Mark .closeBrace mid rest ∧ rest.length < n ∧
      a.scopeKind ≠ .global ∧ ((placed a is).apply .close).run rest = .ok fin

theorem Ends.cons {fin a : Assembly} {n m : Nat} {i : Item} {is : List Item}
    {mid : List Token} (hle : n ≤ m) (h : Ends fin (placed a [i]) n is mid) :
    Ends fin a m (i :: is) mid := by
  rcases h with hend | ⟨rest, hclose, hlt, hscope, hrun⟩
  · exact .inl hend
  · exact .inr ⟨rest, hclose, by omega, hscope, hrun⟩

theorem Ends.mono {fin a : Assembly} {n m : Nat} {is : List Item}
    {mid : List Token} (hle : n ≤ m) (h : Ends fin a n is mid) :
    Ends fin a m is mid := by
  rcases h with hend | ⟨rest, hclose, hlt, hscope, hrun⟩
  · exact .inl hend
  · exact .inr ⟨rest, hclose, by omega, hscope, hrun⟩

/-- A run from a state of a module that ends outside all scopes has read items
of that module first. -/
theorem items_of_run {fin : Assembly} (hfin : fin.scopes = []) :
    ∀ (ts : List Token) (a : Assembly), InModule a → a.run ts = .ok fin →
      ∃ is mid, Items is ts mid ∧ Ends fin a ts.length is mid := by
  intro ts
  induction hlength : ts.length using Nat.strongRecOn generalizing ts with
  | ind n ih =>
      intro a ha h
      cases ts with
      | nil =>
          rw [Assembly.run_nil] at h
          cases h
          exact ⟨[], [], .nil, .inl ⟨rfl, rfl⟩⟩
      | cons t ts =>
          obtain ⟨s, rest, hsaid, hlt, hrun⟩ := said_of_run h
          rw [hlength] at hlt
          cases hsaid with
          | @directive d _ _ hdirective =>
              have hnext : InModule (placed a [.directive d]) := ha
              obtain ⟨is, mid, his, hends⟩ :=
                ih rest.length hlt rest rfl _ hnext hrun
              exact ⟨.directive d :: is, mid, .directive hdirective his,
                hends.cons (Nat.le_of_lt hlt)⟩
          | @skip _ ls _ hignored hls =>
              obtain ⟨is, mid, his, hends⟩ :=
                ih rest.length hlt rest rfl _ ha hrun
              exact ⟨is, mid, .ignored hignored (his.lineEnds_append hls),
                hends.mono (Nat.le_of_lt hlt)⟩
          | close hscope hclose =>
              exact ⟨[], _, .nil, .inr ⟨rest, hclose, hlt, hscope, hrun⟩⟩
          | worded hworded =>
              obtain ⟨keyword, b, hword, hstated⟩ :=
                hworded.declaring_of_inModule ha
              rcases declaredItem_of_run hfin hword hstated hrun with
                ⟨d, ds, rest', hdeclared, hle, hrun'⟩ |
                  ⟨name, c, hmodule, hname, hopen, rfl⟩
              · have hnext : InModule (placed a [.declaration d ds]) := ha
                have hlt' : rest'.length < n := by omega
                obtain ⟨is, mid, his, hends⟩ :=
                  ih rest'.length hlt' rest' rfl _ hnext hrun'
                exact ⟨.declaration d ds :: is, mid, .declaration hdeclared his,
                  hends.cons (Nat.le_of_lt hlt')⟩
              · have hinside := inModule_openModule a name (siteAhead b)
                obtain ⟨body, mid, hbody, hends⟩ :=
                  ih rest.length hlt rest rfl _ hinside hrun
                rcases hends with ⟨-, rfl⟩ | ⟨rest', hclose, hlt', -, hrun'⟩
                · cases hfin
                · rw [close_placed_openModule] at hrun'
                  have hnext : InModule (placed a [.module name body]) := ha
                  have hlt'' : rest'.length < n := by omega
                  obtain ⟨is, last, his, hends⟩ :=
                    ih rest'.length hlt'' rest' rfl _ hnext hrun'
                  exact ⟨.module name body :: is, last,
                    .module hmodule hname hopen hbody hclose his,
                    hends.cons (Nat.le_of_lt hlt'')⟩

theorem source_of_parse {ts : List Token} {tree : ModuleTree}
    (h : parse ts = .ok tree) : Source ts tree := by
  obtain ⟨fin, hrun, hfin, rfl⟩ := parse_eq_ok_iff.mp h
  rcases items_of_run hfin ts .start (.inl rfl) hrun with
    ⟨is, mid, his, ⟨rfl, rfl⟩ | ⟨-, -, -, hscope, -⟩⟩
  · exact ⟨is, his, rfl⟩
  · exact absurd rfl hscope

theorem Source.parse_eq {ts : List Token} {tree : ModuleTree}
    (h : Source ts tree) : parse ts = .ok tree := by
  rcases h with ⟨is, his, rfl⟩
  refine parse_eq_ok_iff.mpr ⟨placed .start is, ?_, rfl, rfl⟩
  rw [his.run (.inl rfl), Assembly.run_nil]

/-- A token list is parsed to a module tree exactly if it is a source with
that tree. -/
theorem parse_eq_ok_iff_source (ts : List Token) (tree : ModuleTree) :
    parse ts = .ok tree ↔ Source ts tree :=
  ⟨source_of_parse, Source.parse_eq⟩

end Idl.Grammar
