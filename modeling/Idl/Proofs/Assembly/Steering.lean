import Idl.Proofs.Assembly.Spans
import Idl.Proofs.Statement.Steering

/-!
# The words that steer the parser

Two streams that are akin are read statement by statement in step, through
states that differ in nothing but texts and sites (`upToWords`).  Both runs come
to their end with trees of the same build, or both stop at tokens with the same
number, and the faults found there differ in the words they show only.

The numbers do not come from the spans, which may be any.  A reading stops with
the rest of its stream, and the name of a scope that is left open begins at a
known place.
-/

namespace Idl

/-- The fault is found at the token at the place `k`: a reading stops in front
of it, or it begins the name of the innermost scope that is left open. -/
inductive FoundAt (ts : List Token) (k : Nat) : Fault → Prop where
  | reading {fault : Fault}
      (hrun : Assembly.start.run ts = .error ⟨fault, ts.drop k⟩) :
      FoundAt ts k fault
  | scope {kind : ScopeKind} {name : String}
      (h : InnermostAt ts k kind name) :
      FoundAt ts k (.unclosedScope kind name)

/-- Trees of the same build, or faults of the same sort: at tokens at the same
place, or where both streams have run out. -/
inductive SameCourse (ts us : List Token) :
    Except ParseError ModuleTree → Except ParseError ModuleTree → Prop where
  | tree {t u : ModuleTree} (h : t.bare = u.bare) :
      SameCourse ts us (.ok t) (.ok u)
  | token {f g : Fault} {k : Nat} {t u : Token} (ht : ts[k]? = some t)
      (hu : us[k]? = some u) (hleft : FoundAt ts k f)
      (hright : FoundAt us k g) (hfault : f.bare = g.bare) :
      SameCourse ts us (.error ⟨f, t.span⟩) (.error ⟨g, u.span⟩)
  | ended {kind : TokenKind}
      (hleft : Assembly.start.run ts = .error ⟨.endOfInput kind, []⟩)
      (hright : Assembly.start.run us = .error ⟨.endOfInput kind, []⟩) :
      SameCourse ts us
        (.error ⟨.endOfInput kind, .point (endOffset ts)⟩)
        (.error ⟨.endOfInput kind, .point (endOffset us)⟩)

/-! ## Runs over two streams -/

theorem places_bare (s : Statement) : s.bare.places = s.places := by
  cases s <;> rfl

/-- What runs over streams that are akin have in common. -/
def upToWords : Likeness Assembly where
  token := Token.Akin
  statement := Matching Statement.bare
  fault := FaultsAkin
  view := Assembly.bare
  kind _ _ h := h.kind
  scopeKind {a b} h := by
    rw [← a.scopeKind_bare, h, b.scopeKind_bare]
  apply h hbare := by
    rw [Assembly.bare_apply, Assembly.bare_apply, h, hbare]
  places {s s'} hbare := by
    rw [← places_bare s, hbare, places_bare s']
  read scope _ _ _ _ _ h := (steers_nextStatement scope).paired h

/-! ## The parser -/

section
variable {ts us : List Token} {a b : Assembly} {f g : Failure}

theorem Abreast.sameCourse (h : Abreast upToWords ts us a [] b []) :
    SameCourse ts us a.outcome b.outcome := by
  have hsame : a.bare = b.bare := h.same
  cases h.openAlike with
  | none ha hb =>
      rw [Assembly.outcome, Assembly.outcome, ha, hb]
      exact .tree (congrArg Assembly.tree hsame)
  | @innermost k t u target target' name name' below below' ht hu ha hb hleft
      hright =>
      have hscopes := congrArg Assembly.scopes hsame
      simp only [Assembly.bare, ha, hb, List.map_cons] at hscopes
      have htarget : target = target' :=
        congrArg Scope.target (List.cons.inj hscopes).1
      rw [Assembly.outcome, Assembly.outcome, ha, hb]
      exact .token ht hu (.scope hleft) (.scope hright) (by
        rw [Fault.bare, Fault.bare, htarget])

/-- A fault at corresponding tokens, or where both streams have run out. -/
theorem FailAbreast.sameCourse (hakin : Akin ts us)
    (hrun : Assembly.start.run ts = .error f)
    (hrun' : Assembly.start.run us = .error g)
    (h : FailAbreast upToWords ts us f g) :
    SameCourse ts us (.error (f.report (endOffset ts)))
      (.error (g.report (endOffset us))) := by
  have hfault : f.fault.bare = g.fault.bare := h.same
  cases FailAbreast.stopsAlike (l := upToWords) hakin h with
  | ended =>
      cases hfault
      exact .ended hrun hrun'
  | token ht hu =>
      rw [report_drop ht, report_drop hu]
      exact .token ht hu (.reading hrun) (.reading hrun') hfault

end

/-- Only the words that steer decide how a stream is parsed, where a fault is
found in it and how the tree is built. -/
theorem parse_akin {ts us : List Token} (h : Akin ts us) :
    SameCourse ts us (parse ts) (parse us) := by
  have hcoupled := run_abreast (l := upToWords) h
  unfold parse
  generalize hrun : Assembly.start.run ts = first at hcoupled
  generalize hrun' : Assembly.start.run us = second at hcoupled
  cases hcoupled with
  | ok habreast => exact habreast.sameCourse
  | error hfail => exact hfail.sameCourse h hrun hrun'

/-- A module that is left open behind a structure, the tokens of one byte
each. -/
def openModule (name struct base : String) (offset : Nat) : List Token :=
  [⟨.identifier, "module", ⟨offset, offset + 1⟩⟩,
    ⟨.identifier, name, ⟨offset + 1, offset + 2⟩⟩,
    ⟨.openBrace, "", ⟨offset + 2, offset + 3⟩⟩,
    ⟨.identifier, "struct", ⟨offset + 3, offset + 4⟩⟩,
    ⟨.identifier, struct, ⟨offset + 4, offset + 5⟩⟩,
    ⟨.colon, "", ⟨offset + 5, offset + 6⟩⟩,
    ⟨.identifier, base, ⟨offset + 6, offset + 7⟩⟩,
    ⟨.openBrace, "", ⟨offset + 7, offset + 8⟩⟩,
    ⟨.closeBrace, "", ⟨offset + 8, offset + 9⟩⟩]

/-- The word `switch` is a name in one of the streams, and so it has to be the
same name in the other. -/
theorem parse_akin_openModule :
    Akin (openModule "A" "switch" "C" 0) (openModule "B" "switch" "d" 70) ∧
    SameCourse (openModule "A" "switch" "C" 0)
      (openModule "B" "switch" "d" 70)
      (.error ⟨.unclosedScope .module "A", ⟨1, 2⟩⟩)
      (.error ⟨.unclosedScope .module "B", ⟨71, 72⟩⟩) := by
  have hakin : Akin (openModule "A" "switch" "C" 0)
      (openModule "B" "switch" "d" 70) := by
    unfold Akin
    decide
  have hrun : Assembly.start.run (openModule "A" "switch" "C" 0) =
      .ok (((Assembly.start.apply (.openModule "A" ⟨1, 2⟩)).apply
        (.openStruct "switch" ["C"] ⟨4, 5⟩)).apply .close) :=
    run_eq_of_runningFor (by decide +kernel)
  have hrun' : Assembly.start.run (openModule "B" "switch" "d" 70) =
      .ok (((Assembly.start.apply (.openModule "B" ⟨71, 72⟩)).apply
        (.openStruct "switch" ["d"] ⟨74, 75⟩)).apply .close) :=
    run_eq_of_runningFor (by decide +kernel)
  have hcourse := parse_akin hakin
  rw [parse, parse, hrun, hrun'] at hcourse
  exact ⟨hakin, hcourse⟩

end Idl
