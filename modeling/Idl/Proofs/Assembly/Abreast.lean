import Idl.Proofs.Assembly.Coupled
import Idl.Proofs.Assembly.Prefix
import Idl.Proofs.Assembly.Scopes
import Idl.Proofs.Statement.Lockstep

/-!
# Runs abreast

Two streams are alike if their tokens are, one by one, in a way that leaves the
kinds of tokens the same.  If statements are read alike from them, and do alike
to states, the two runs are abreast from the start to the end.  A way of being
alike is given by what counts of tokens, statements, faults and states
(`Likeness`), and everything about two runs is shown once for all ways.

What a report points at is said by number.  Runs that are abreast stop at tokens
with the same number.  A scope that is left open is reported at its site, and
that is the token its name began with, back when the scope was opened; so the
places of these names are followed along the runs.
-/

namespace Idl

open Grammar

/-! ## The places of names -/

theorem Reached.suffix {ts rest : List Token} {a : Assembly}
    (h : Reached ts a rest) : rest <:+ ts := by
  induction h with
  | start => exact List.suffix_rfl
  | @step a t us rest s _ hread ih =>
      have hnext : nextStatement a.scopeKind (t :: us) = .ok (s, rest) := hread
      exact ((Composed.nextStatement _).isLocal.suffix_ok hnext).trans ih

/-- The innermost of the scopes was opened by a statement of the run, and the
name in that statement begins with the token at the place `k`. -/
inductive NamedAt (ts : List Token) (k : Nat) : List Scope → Prop where
  | intro {a : Assembly} {t : Token} {rest rest' behind : List Token}
      {s : Statement} {scope : Scope} (hreached : Reached ts a (t :: rest))
      (hread : readStatement a.scopeKind t rest = .ok (s, rest'))
      (hopened : (a.apply s).scopes = scope :: a.scopes)
      (hplace : skipLines rest = ts.drop k)
      (hname : DeclaredText scope.name (ts.drop k) behind) :
      NamedAt ts k (scope :: a.scopes)

/-- The sites of the scopes are the spans of the tokens at the given places,
with which the names of the scopes begin. -/
inductive Sited (ts : List Token) : List Scope → List Nat → Prop where
  | nil : Sited ts [] []
  | cons {scope : Scope} {scopes : List Scope} {k : Nat} {places : List Nat}
      {t : Token} (ht : ts[k]? = some t) (hsite : scope.site = t.span)
      (hnamed : NamedAt ts k (scope :: scopes))
      (hbelow : Sited ts scopes places) :
      Sited ts (scope :: scopes) (k :: places)

/-- What a statement does to the places of the names of the open scopes, where
`k` is the place of the token behind its first. -/
def Statement.places (s : Statement) (k : Nat) (below : List Nat) : List Nat :=
  match s with
  | .openModule _ _ => k :: below
  | .openStruct _ _ _ => k :: below
  | .openEnum _ _ => k :: below
  | .openInterface _ _ _ => k :: below
  | .openUnion _ _ _ => k :: below
  | .close => below.tail
  | _ => below

theorem Grammar.DeclaredText.wordFirst {name : String} {a b : List Token}
    (h : DeclaredText name a b) : WordFirst a := by
  rcases h with ⟨⟨hfirst, -, -⟩⟩
  exact wordFirst_of_word hfirst

section
variable {ts : List Token} {a : Assembly} {t : Token} {rest rest' : List Token}
  {s : Statement} {places : List Nat}

theorem Grammar.Stated.named {keyword : Keyword} {b : List Token}
    (h : Stated keyword s rest b) {name : String}
    (hname : s.opens? = some name) :
    ∃ c, DeclaredText name rest c := by
  cases h with
  | module htext => cases hname; exact ⟨_, htext⟩
  | struct htext => cases hname; exact ⟨_, htext⟩
  | enum htext => cases hname; exact ⟨_, htext⟩
  | interface htext => cases hname; exact ⟨_, htext⟩
  | union htext => cases hname; exact ⟨_, htext⟩
  | _ => cases hname

/-- The name of the scope stands behind the first token of the statement. -/
theorem named_of_readStatement {scope : ScopeKind}
    (h : readStatement scope t rest = .ok (s, rest')) {name : String}
    (hname : s.opens? = some name) :
    ∃ b, DeclaredText name (skipLines rest) b := by
  obtain ⟨-, keyword, -, -, hread⟩ := keyword_of_opens h hname
  have hstated :=
    (reads_keyword_statement keyword).sound (settled_skipLines rest) hread
  exact hstated.1.named hname

/-- A scope that is opened is sited at the token its name begins with. -/
theorem Sited.opened (h : Sited ts a.scopes places)
    (hreached : Reached ts a (t :: rest))
    (hread : readStatement a.scopeKind t rest = .ok (s, rest'))
    {name : String} (hname : s.opens? = some name) {target : Target}
    (hopened : (a.apply s).scopes =
      ⟨target, name, siteAhead rest⟩ :: a.scopes) :
    Sited ts (a.apply s).scopes
      ((ts.length - (skipLines rest).length) :: places) := by
  have hsuffix : skipLines rest <:+ ts :=
    ((skipLines_suffix rest).trans (List.suffix_cons t rest)).trans
      hreached.suffix
  have hplace := List.suffix_iff_eq_drop.mp hsuffix
  obtain ⟨b, htext⟩ := named_of_readStatement hread hname
  obtain ⟨w, ws, hfront, -⟩ := htext.wordFirst
  have hw : ts[ts.length - (skipLines rest).length]? = some w := by
    rw [← List.head?_drop, ← hplace, hfront, List.head?_cons]
  have hsite : siteAhead rest = w.span := by
    rw [siteAhead, next?_eq, hfront]
    rfl
  rw [hopened]
  exact .cons hw hsite (.intro hreached hread hopened hplace (hplace ▸ htext)) h

theorem Sited.apply (h : Sited ts a.scopes places)
    (hreached : Reached ts a (t :: rest))
    (hread : readStatement a.scopeKind t rest = .ok (s, rest')) :
    Sited ts (a.apply s).scopes
      (s.places (ts.length - (skipLines rest).length) places) := by
  have hsite := resite_of_readStatement hread
  cases s with
  | openModule name site =>
      cases hsite
      exact h.opened hreached hread rfl rfl
  | openStruct name bases site =>
      cases hsite
      exact h.opened hreached hread rfl rfl
  | openEnum name site =>
      cases hsite
      exact h.opened hreached hread rfl rfl
  | openInterface name bases site =>
      cases hsite
      exact h.opened hreached hread rfl rfl
  | openUnion name discriminant site =>
      cases hsite
      exact h.opened hreached hread rfl rfl
  | close =>
      rw [Assembly.apply, scopes_close]
      generalize a.scopes = scopes at h ⊢
      cases h with
      | nil => exact .nil
      | cons _ _ _ hbelow => exact hbelow
  | member => rwa [Assembly.apply, Assembly.addMember, scopes_fill]
  | enumerator => rwa [Assembly.apply, Assembly.addEnumerator, scopes_fill]
  | method => rwa [Assembly.apply, Assembly.addMethod, scopes_fill]
  | unionCase => rwa [Assembly.apply, Assembly.addCase, scopes_fill]
  | _ => exact h

end

/-! ## Where runs end -/

/-- At the end of the input the innermost of the scopes that are open is of the
given kind and name, and its name begins with the token at the place `k`. -/
def InnermostAt (ts : List Token) (k : Nat) (kind : ScopeKind) (name : String) :
    Prop :=
  ∃ a scope below, Reached ts a [] ∧ a.scopes = scope :: below ∧
    scope.target.kind = kind ∧ scope.name = name ∧ NamedAt ts k a.scopes

/-- A failure inside a statement of the stream. -/
structure FailsAt (ts : List Token) (failure : Failure) : Prop where
  suffix : failure.rest <:+ ts
  ofReading : failure.fault.OfReading
  ended : failure.rest = [] → ∃ kind, failure.fault = .endOfInput kind

section
variable {ts rest : List Token} {a : Assembly} {t : Token}

theorem Reached.skipLines (h : Reached ts a rest) :
    Reached ts a (skipLines rest) := by
  cases rest with
  | nil => exact h
  | cons t rest =>
      by_cases ht : t.kind = .endLine
      · have hskip : readStatement a.scopeKind t rest =
            .ok (.skip, Idl.skipLines rest) := by
          simp only [readStatement, ht]
        rw [skipLines_cons_endLine ht]
        exact h.step hskip
      · rwa [settled_cons.mpr ht]

theorem Reached.failsAt (h : Reached ts a (t :: rest)) {failure : Failure}
    (hread : readStatement a.scopeKind t rest = .error failure) :
    FailsAt ts failure := by
  rcases failure with ⟨fault, more⟩
  have hnext : nextStatement a.scopeKind (t :: rest) = .error ⟨fault, more⟩ :=
    hread
  have hcomposed := Composed.nextStatement a.scopeKind
  refine ⟨(hcomposed.isLocal.suffix_error hnext).trans h.suffix,
    hcomposed.ofReading hnext, fun hmore => ?_⟩
  cases hmore
  exact hcomposed.isLocal.endOfInput hnext

/-- The outcome where the tokens are used up. -/
def Assembly.outcome (a : Assembly) : Except ParseError ModuleTree :=
  match a.scopes with
  | [] => .ok a.tree
  | scope :: _ => .error scope.unclosed

end

/-- Scopes that are open in two states, with names that begin at tokens with the
same number, or none are open. -/
inductive OpenAlike (ts us : List Token) (a b : Assembly) : Prop where
  | none (ha : a.scopes = []) (hb : b.scopes = [])
  | innermost {k : Nat} {t u : Token} {target target' : Target}
      {name name' : String} {below below' : List Scope} (ht : ts[k]? = some t)
      (hu : us[k]? = some u) (ha : a.scopes = ⟨target, name, t.span⟩ :: below)
      (hb : b.scopes = ⟨target', name', u.span⟩ :: below')
      (hleft : InnermostAt ts k target.kind name)
      (hright : InnermostAt us k target'.kind name')

/-- Failures in front of tokens with the same number, or at the ends. -/
inductive StopsAlike (ts us : List Token) : Failure → Failure → Prop where
  | token {f g : Fault} {k : Nat} {t u : Token} (ht : ts[k]? = some t)
      (hu : us[k]? = some u) :
      StopsAlike ts us ⟨f, ts.drop k⟩ ⟨g, us.drop k⟩
  | ended {kind kind' : TokenKind} :
      StopsAlike ts us ⟨.endOfInput kind, []⟩ ⟨.endOfInput kind', []⟩

theorem report_drop {ts : List Token} {k : Nat} {t : Token}
    (ht : ts[k]? = some t) (fault : Fault) (stop : Nat) :
    Failure.report ⟨fault, ts.drop k⟩ stop = ⟨fault, t.span⟩ := by
  rw [Failure.report, List.head?_drop, ht]
  rfl

/-! ## Ways of being alike -/

/-- What counts of tokens, statements, faults and states, so that statements are
read alike and do alike. -/
structure Likeness (γ : Type) where
  token : Token → Token → Prop
  statement : Statement → Statement → Prop
  fault : List Token → List Token → Fault → Fault → Prop
  view : Assembly → γ
  kind : ∀ t u, token t u → t.kind = u.kind
  scopeKind : ∀ {a b}, view a = view b → a.scopeKind = b.scopeKind
  apply : ∀ {a b s s'}, view a = view b → statement s s' →
    view (a.apply s) = view (b.apply s')
  places : ∀ {s s'}, statement s s' → s.places = s'.places
  read : ∀ scope {t u ts us}, t.kind ≠ .endLine →
    List.Forall₂ token (t :: ts) (u :: us) →
      Paired (List.Forall₂ token) (List.Forall₂ token) fault statement
        (readStatement scope t ts) (readStatement scope u us)

section
variable {γ : Type} (l : Likeness γ)

/-- The states of two runs at tokens with the same number. -/
structure Abreast (ts us : List Token) (a : Assembly) (rest : List Token)
    (b : Assembly) (rest' : List Token) : Prop where
  left : Reached ts a rest
  right : Reached us b rest'
  same : l.view a = l.view b
  sited : ∃ places, Sited ts a.scopes places ∧ Sited us b.scopes places
  rests : List.Forall₂ l.token rest rest'

/-- The failures of two runs at tokens with the same number. -/
structure FailAbreast (ts us : List Token) (f g : Failure) : Prop where
  left : FailsAt ts f
  right : FailsAt us g
  same : l.fault f.rest g.rest f.fault g.fault
  rests : List.Forall₂ l.token f.rest g.rest

end

section
variable {γ : Type} {l : Likeness γ} {ts us rest rest' more more' : List Token}
  {a b : Assembly} {t u : Token} {s s' : Statement}

theorem Abreast.start (halike : List.Forall₂ l.token ts us) :
    Abreast l ts us .start ts .start us :=
  ⟨.start, .start, rfl, ⟨[], .nil, .nil⟩, halike⟩

theorem Abreast.step (halike : List.Forall₂ l.token ts us)
    (h : Abreast l ts us a (t :: rest) b (u :: rest'))
    (hread : readStatement a.scopeKind t rest = .ok (s, more))
    (hread' : readStatement b.scopeKind u rest' = .ok (s', more'))
    (hsame : l.statement s s') (hmore : List.Forall₂ l.token more more') :
    Abreast l ts us (a.apply s) more (b.apply s') more' := by
  obtain ⟨places, hsited, hsited'⟩ := h.sited
  have htail := forall₂_skipLines l.kind (List.forall₂_cons.mp h.rests).2
  have hplace : ts.length - (skipLines rest).length =
      us.length - (skipLines rest').length := by
    rw [halike.length_eq, htail.length_eq]
  refine ⟨h.left.step hread, h.right.step hread', l.apply h.same hsame,
    ⟨_, hsited.apply h.left hread, ?_⟩, hmore⟩
  rw [l.places hsame, hplace]
  exact hsited'.apply h.right hread'

theorem Abreast.coupling (halike : List.Forall₂ l.token ts us) :
    Coupling (Abreast l ts us) (FailAbreast l ts us) where
  skip h := ⟨h.left.skipLines, h.right.skipLines, h.same, h.sited,
    forall₂_skipLines l.kind h.rests⟩
  round {a b rest rest'} hsettled _ h := by
    cases id h.rests with
    | nil => exact .ended
    | @cons t u rest rest' =>
        have hpaired := l.read a.scopeKind (settled_cons.mp hsettled) h.rests
        refine .read ?_
        generalize hread : readStatement a.scopeKind t rest = first at hpaired
        rw [l.scopeKind h.same] at hpaired
        generalize hread' : readStatement b.scopeKind u rest' = second
          at hpaired
        cases hpaired with
        | ok hsame hmore => exact .ok (h.step halike hread hread' hsame hmore)
        | error hmore hsame =>
            exact .error ⟨h.left.failsAt hread, h.right.failsAt hread',
              hsame, hmore⟩

/-- Runs over streams that are alike are abreast where they end. -/
theorem run_abreast (halike : List.Forall₂ l.token ts us) :
    Coupled (Abreast l ts us) (FailAbreast l ts us) (Assembly.start.run ts)
      (Assembly.start.run us) :=
  (Abreast.coupling halike).run (.start halike)

theorem Abreast.openAlike (h : Abreast l ts us a [] b []) :
    OpenAlike ts us a b := by
  obtain ⟨places, hsited, hsited'⟩ := h.sited
  generalize hscopes : a.scopes = scopes at hsited
  generalize hscopes' : b.scopes = scopes' at hsited'
  cases hsited with
  | nil =>
      cases hsited'
      exact .none hscopes hscopes'
  | @cons scope below k places t ht hsite hnamed hbelow =>
      cases hsited' with
      | @cons scope' below' _ _ u hu hsite' hnamed' hbelow' =>
          rcases scope with ⟨target, name, site⟩
          rcases scope' with ⟨target', name', site'⟩
          cases hsite
          cases hsite'
          exact .innermost ht hu hscopes hscopes'
            ⟨a, _, below, h.left, hscopes, rfl, rfl, hscopes ▸ hnamed⟩
            ⟨b, _, below', h.right, hscopes', rfl, rfl, hscopes' ▸ hnamed'⟩

theorem FailAbreast.stopsAlike (halike : List.Forall₂ l.token ts us)
    {f g : Failure} (h : FailAbreast l ts us f g) : StopsAlike ts us f g := by
  rcases f with ⟨fault, rest⟩
  rcases g with ⟨fault', rest'⟩
  have hdrop := List.suffix_iff_eq_drop.mp h.left.suffix
  have hdrop' := List.suffix_iff_eq_drop.mp h.right.suffix
  have hrests : List.Forall₂ l.token rest rest' := h.rests
  simp only at hdrop hdrop'
  rw [← halike.length_eq, ← hrests.length_eq] at hdrop'
  cases hrests with
  | nil =>
      obtain ⟨kind, rfl⟩ := h.left.ended rfl
      obtain ⟨kind', rfl⟩ := h.right.ended rfl
      exact .ended
  | @cons t u rest rest' =>
      have ht : ts[ts.length - (t :: rest).length]? = some t := by
        rw [← List.head?_drop, ← hdrop, List.head?_cons]
      have hu : us[ts.length - (t :: rest).length]? = some u := by
        rw [← List.head?_drop, ← hdrop', List.head?_cons]
      rw [hdrop, hdrop']
      exact .token ht hu

end

end Idl
