import Idl.Proofs.Assembly.Abreast

/-!
# Spans

Spans are copied into reports and never looked at.  Two streams with the same
tokens at other spans are read in step, and their runs go through states that
differ in nothing but the sites of the open scopes (`upToSpans`).

So the trees are the same, and a fault stands at the same token of both streams.
A scope that is left open has its name at the same place in both.
-/

namespace Idl

open Grammar

/-! ## Streams with other spans -/

/-- The same tokens, except for their spans. -/
def Respanned (ts us : List Token) : Prop :=
  List.Forall₂ (fun t u => t.kind = u.kind ∧ t.text = u.text) ts us

theorem shape_eq_iff {t u : Token} :
    t.shape = u.shape ↔ t.kind = u.kind ∧ t.text = u.text :=
  Prod.mk.injEq _ _ _ _ ▸ Iff.rfl

section
variable {ts us : List Token}

theorem Respanned.skipLines (h : Respanned ts us) :
    Respanned (skipLines ts) (skipLines us) :=
  forall₂_skipLines (fun _ _ htu => htu.1) h

theorem Respanned.level (h : Respanned ts us) :
    Level Respanned (Idl.skipLines ts) (Idl.skipLines us) :=
  ⟨settled_skipLines ts, settled_skipLines us, h.skipLines⟩

theorem inStep_respanned : InStep (Level Respanned) := by
  rintro ts us ⟨hsettled, -, h⟩
  cases h with
  | nil => exact .halted .ended .ended
  | @cons t u ts us htu hmore =>
      by_cases hhash : t.kind = .hash
      · exact .halted (.hash hhash) (.hash (htu.1 ▸ hhash))
      · exact .token (shape_eq_iff.mpr htu) hhash (settled_cons.mp hsettled)
          (Respanned.level hmore)

theorem Respanned.sameFront (h : Respanned ts us) : SameFront ts us := by
  cases h with
  | nil => rfl
  | cons htu => exact congrArg some (shape_eq_iff.mpr htu)

theorem Respanned.valued (h : Respanned ts us) :
    InStep.Valued Respanned ts us := by
  cases h with
  | nil => exact .none nofun nofun .nil
  | @cons t u ts us htu hmore =>
      by_cases ht : t.kind = .identifier
      · exact .word ht (shape_eq_iff.mpr htu) hmore
      · exact .none (by simpa using ht) (by simpa using htu.1 ▸ ht)
          (.cons htu hmore)

theorem readStatement_respanned (scope : ScopeKind) {t u : Token}
    (hline : t.kind ≠ .endLine) (h : Respanned (t :: ts) (u :: us)) :
    Agreed Respanned Respanned Restated (readStatement scope t ts)
      (readStatement scope u us) := by
  obtain ⟨htu, hmore⟩ := List.forall₂_cons.mp h
  have hlevel : Level Respanned (t :: ts) (u :: us) :=
    ⟨settled_cons.mpr hline, settled_cons.mpr (htu.1 ▸ hline), h⟩
  have hrelated : ∀ ts us, Level Respanned ts us → Respanned ts us :=
    fun _ _ h => h.related
  by_cases hhash : t.kind = .hash
  · rw [readStatement_of_hash hhash, readStatement_of_hash (htu.1 ▸ hhash)]
    refine Paired.map (R := Eq) ?_ fun _ _ hsame => hsame ▸ .refl _
    refine (inStep_respanned.readDirective hrelated
      (Respanned.level hmore) ?_).mono_rests hrelated fun _ _ => id
    intro d e rest rest' _ _ _ hrest
    refine inStep_respanned.readDefine hrest fun n m more more' hn hm _ => ?_
    have hnamed := hrest.related
    rw [hn, hm] at hnamed
    exact Respanned.valued (List.forall₂_cons.mp hnamed).2
  · exact (inStep_respanned.readStatement scope hlevel hhash).mono_rests
      hrelated hrelated

end

/-! ## States without sites -/

def Assembly.unsited (a : Assembly) : Assembly :=
  { a with scopes := a.scopes.map fun scope => { scope with site := .point 0 } }

theorem unsited_fill (a : Assembly)
    (change : Target → ModuleDecl → ModuleDecl) :
    (a.fill change).unsited = a.unsited.fill change := by
  rcases a with ⟨tree, current, _ | ⟨scope, scopes⟩⟩ <;> rfl

theorem unsited_close (a : Assembly) : a.close.unsited = a.unsited.close := by
  rcases a with ⟨tree, current, _ | ⟨⟨target, name, site⟩, scopes⟩⟩
  · rfl
  · cases target <;> rfl

theorem unsited_apply (a : Assembly) (s : Statement) :
    (a.apply s).unsited = a.unsited.apply (s.resite (.point 0)) := by
  cases s with
  | member => exact unsited_fill a _
  | enumerator => exact unsited_fill a _
  | method => exact unsited_fill a _
  | unionCase => exact unsited_fill a _
  | close => exact unsited_close a
  | _ => rfl

theorem scopeKind_unsited (a : Assembly) :
    a.unsited.scopeKind = a.scopeKind := by
  rcases a with ⟨tree, current, _ | ⟨scope, scopes⟩⟩ <;> rfl

theorem places_resite (s : Statement) (site : Span) :
    (s.resite site).places = s.places := by
  cases s <;> rfl

theorem Restated.places_eq {s s' : Statement} (h : Restated s s') :
    s.places = s'.places := by
  rw [← places_resite s (.point 0), h, places_resite]

/-- What runs over streams with other spans have in common. -/
def upToSpans : Likeness Assembly where
  token t u := t.kind = u.kind ∧ t.text = u.text
  statement := Restated
  fault := SameFault
  view := Assembly.unsited
  kind _ _ h := h.1
  scopeKind {a b} h := by
    rw [← scopeKind_unsited a, h, scopeKind_unsited b]
  apply h hrestated := by
    rw [unsited_apply, unsited_apply, h, hrestated]
  places h := h.places_eq
  read scope _ _ _ _ hline h := readStatement_respanned scope hline h

/-! ## The parser -/

/-- The same tree, or the same fault: at the token at the same place, or behind
the last token of either stream. -/
inductive Corresponding (ts us : List Token) :
    Except ParseError ModuleTree → Except ParseError ModuleTree → Prop where
  | tree {t : ModuleTree} : Corresponding ts us (.ok t) (.ok t)
  | token {fault : Fault} {k : Nat} {t u : Token} (ht : ts[k]? = some t)
      (hu : us[k]? = some u)
      (hscope : ∀ kind name, fault = .unclosedScope kind name →
        InnermostAt ts k kind name ∧ InnermostAt us k kind name) :
      Corresponding ts us (.error ⟨fault, t.span⟩) (.error ⟨fault, u.span⟩)
  | ended {kind : TokenKind} :
      Corresponding ts us
        (.error ⟨.endOfInput kind, .point (endOffset ts)⟩)
        (.error ⟨.endOfInput kind, .point (endOffset us)⟩)

section
variable {ts us : List Token} {a b : Assembly}

theorem Abreast.corresponding (h : Abreast upToSpans ts us a [] b []) :
    Corresponding ts us a.outcome b.outcome := by
  have hsame : a.unsited = b.unsited := h.same
  cases h.openAlike with
  | none ha hb =>
      have htree := congrArg Assembly.tree hsame
      change a.tree = b.tree at htree
      rw [Assembly.outcome, Assembly.outcome, ha, hb, htree]
      exact .tree
  | @innermost k t u target target' name name' below below' ht hu ha hb hleft
      hright =>
      have hscopes := congrArg Assembly.scopes hsame
      rw [Assembly.unsited, Assembly.unsited, ha, hb] at hscopes
      simp only [List.map_cons, List.cons.injEq, Scope.mk.injEq] at hscopes
      obtain ⟨⟨rfl, rfl, -⟩, -⟩ := hscopes
      rw [Assembly.outcome, Assembly.outcome, ha, hb]
      refine .token ht hu fun kind word hfault => ?_
      cases hfault
      exact ⟨hleft, hright⟩

/-- A fault at corresponding tokens, or where both streams have ended. -/
theorem FailAbreast.corresponding (hspans : Respanned ts us) {f g : Failure}
    (h : FailAbreast upToSpans ts us f g) :
    Corresponding ts us (.error (f.report (endOffset ts)))
      (.error (g.report (endOffset us))) := by
  have hrests : Respanned f.rest g.rest := h.rests
  have hfault : f.fault = g.fault := h.same hrests.sameFront
  have hreading := h.left.ofReading
  cases FailAbreast.stopsAlike (l := upToSpans) hspans h with
  | ended =>
      cases hfault
      exact .ended
  | token ht hu =>
      cases hfault
      rw [report_drop ht, report_drop hu]
      refine .token ht hu fun kind name hscope => ?_
      cases hscope
      obtain hconclusive | ⟨needed, hend⟩ := hreading
      · exact hconclusive.elim
      · cases hend

end

/-- Two streams that differ in their spans parse to the same tree, or to faults
that correspond. -/
theorem parse_respanned {ts us : List Token} (h : Respanned ts us) :
    Corresponding ts us (parse ts) (parse us) := by
  have hcoupled := run_abreast (l := upToSpans) h
  unfold parse
  generalize Assembly.start.run ts = first at hcoupled
  generalize Assembly.start.run us = second at hcoupled
  cases hcoupled with
  | ok habreast => exact habreast.corresponding
  | error hfail => exact hfail.corresponding h

/-- The tokens of a module that is left open. -/
def openedModule (site : Span) : List Token :=
  [⟨.identifier, "module", ⟨0, 6⟩⟩, ⟨.identifier, "A", site⟩,
    ⟨.openBrace, "", ⟨9, 10⟩⟩]

theorem parse_respanned_openedModule :
    Respanned (openedModule ⟨7, 8⟩) (openedModule ⟨20, 30⟩) ∧
    Corresponding (openedModule ⟨7, 8⟩) (openedModule ⟨20, 30⟩)
      (.error ⟨.unclosedScope .module "A", ⟨7, 8⟩⟩)
      (.error ⟨.unclosedScope .module "A", ⟨20, 30⟩⟩) := by
  have hspans : Respanned (openedModule ⟨7, 8⟩) (openedModule ⟨20, 30⟩) :=
    .cons ⟨rfl, rfl⟩ (.cons ⟨rfl, rfl⟩ (.cons ⟨rfl, rfl⟩ .nil))
  have hfirst : parse (openedModule ⟨7, 8⟩) =
      .error ⟨.unclosedScope .module "A", ⟨7, 8⟩⟩ := by
    decide +kernel
  have hsecond : parse (openedModule ⟨20, 30⟩) =
      .error ⟨.unclosedScope .module "A", ⟨20, 30⟩⟩ := by
    decide +kernel
  have hreports := parse_respanned hspans
  rw [hfirst, hsecond] at hreports
  exact ⟨hspans, hreports⟩

end Idl
