import Idl.Proofs.Assembly.Coupled
import Idl.Proofs.Assembly.Prefix
import Idl.Proofs.Statement.Lockstep

/-!
# Line ends

A line end in a stream can be left out, unless it keeps the word behind it from
being the value of a definition.  The stream and the one without the line end
are read in step.  They differ until the line end is passed, and as long as it
is ahead the tokens passed so far tell whether it stands behind the name of a
definition, the only place where a reading looks at line ends.

Faults are the same and stand at the same token.  Only where there is none left
the line end shows in the report, as it may be what the source ends with.
-/

namespace Idl

open Grammar

/-! ## Two streams that differ in a line end -/

def significant (ts : List Token) : List Token :=
  ts.filter fun t => t.kind != .endLine

/-- The line end `n` between `xs` and `ys` has been passed, or it is still
ahead and the given tokens are those passed last. -/
inductive Parted (xs : List Token) (n : Token) (ys passed : List Token) :
    List Token → List Token → Prop where
  | behind {ts : List Token} : Parted xs n ys passed ts ts
  | ahead {front : List Token}
      (hfront : passed ++ significant front <:+ significant xs) :
      Parted xs n ys passed (front ++ n :: ys) (front ++ ys)

/-- The last tokens, line ends aside, are a number sign, the word `define` and
another word. -/
def EndsInDefinition (xs : List Token) : Prop :=
  ∃ hash word name : Token, hash.kind = .hash ∧ word.isWord "define" ∧
    name.kind = .identifier ∧ [hash, word, name] <:+ significant xs

theorem significant_cons {t : Token} (ht : t.kind ≠ .endLine)
    (ts : List Token) : significant (t :: ts) = t :: significant ts := by
  simp [significant, ht]

theorem significant_skipLines (ts : List Token) :
    significant (skipLines ts) = significant ts := by
  induction ts with
  | nil => rfl
  | cons t ts ih =>
      by_cases ht : t.kind = .endLine
      · rw [skipLines_cons_endLine ht, ih]
        simp [significant, ht]
      · rw [settled_cons.mpr ht]

namespace Parted

variable {xs ys passed ts us : List Token} {n : Token}

theorem forget (h : Parted xs n ys passed ts us) : Parted xs n ys [] ts us := by
  cases h with
  | behind => exact .behind
  | ahead hfront => exact .ahead ((List.suffix_append _ _).trans hfront)

theorem skipLines (hn : n.kind = .endLine) (h : Parted xs n ys passed ts us) :
    Parted xs n ys passed (skipLines ts) (skipLines us) := by
  cases h with
  | behind => exact .behind
  | @ahead front hfront =>
      by_cases hdrop : Idl.skipLines front = []
      · obtain ⟨ls, hls, hfrontLines⟩ := exists_lineEnds front
        rw [hdrop, List.append_nil] at hfrontLines
        rw [hfrontLines, skipLines_lineEnds_append hls,
          skipLines_lineEnds_append hls, skipLines_cons_endLine hn]
        exact .behind
      · rw [skipLines_append_of_ne_nil hdrop, skipLines_append_of_ne_nil hdrop]
        exact .ahead (by rwa [significant_skipLines])

/-- The token in front is the same one, and it is passed in both streams. -/
theorem pass (hn : n.kind = .endLine) {t u : Token} (ht : t.kind ≠ .endLine)
    (h : Parted xs n ys passed (t :: ts) (u :: us)) :
    t = u ∧ Parted xs n ys (passed ++ [t]) ts us := by
  generalize hts : t :: ts = first at h
  generalize hus : u :: us = second at h
  cases h with
  | behind =>
      cases hts.trans hus.symm
      exact ⟨rfl, .behind⟩
  | @ahead front hfront =>
      cases front with
      | nil =>
          cases hts
          exact absurd hn ht
      | cons f front =>
          cases hts
          cases hus
          refine ⟨rfl, .ahead ?_⟩
          rwa [significant_cons ht, List.append_cons] at hfront

theorem head?_eq (hn : n.kind = .endLine)
    (h : Level (Parted xs n ys passed) ts us) : ts.head? = us.head? := by
  rcases h with ⟨hts, -, ⟨-⟩ | @⟨front, -⟩⟩
  · rfl
  · cases front with
    | nil => exact absurd hn (settled_cons.mp hts)
    | cons f front => rfl

theorem level (hn : n.kind = .endLine) (h : Parted xs n ys passed ts us) :
    Level (Parted xs n ys []) (Idl.skipLines ts) (Idl.skipLines us) :=
  ⟨settled_skipLines ts, settled_skipLines us, (h.skipLines hn).forget⟩

end Parted

section
variable {xs ys : List Token} {n : Token}

theorem inStep_parted (hn : n.kind = .endLine) :
    InStep (Level (Parted xs n ys [])) := by
  intro ts us h
  have hhead := Parted.head?_eq hn h
  cases ts with
  | nil =>
      cases us with
      | nil => exact .halted .ended .ended
      | cons u us => cases hhead
  | cons t ts =>
      cases us with
      | nil => cases hhead
      | cons u us =>
          have hline := settled_cons.mp h.left
          obtain ⟨rfl, hbehind⟩ := h.related.pass hn hline
          by_cases hhash : t.kind = .hash
          · exact .halted (.hash hhash) (.hash hhash)
          · exact .token rfl hhash hline (hbehind.level hn)

/-! ## Statements -/

/-- Behind the name of a definition both streams have its value, or both have
none. -/
theorem valued_of_parted
    (hends : EndsInDefinition xs → ¬ Ahead .identifier ys)
    {hash word name : Token} {ts us : List Token} (hhash : hash.kind = .hash)
    (hword : word.isWord "define") (hname : name.kind = .identifier)
    (hn : n.kind = .endLine) (h : Parted xs n ys [hash, word, name] ts us) :
    InStep.Valued (Parted xs n ys []) ts us := by
  have hforget := h.forget
  cases h with
  | behind =>
      cases ts with
      | nil => exact .none nofun nofun hforget
      | cons v ts =>
          by_cases hv : v.kind = .identifier
          · exact .word hv rfl .behind
          · exact .none (by simpa using hv) (by simpa using hv) hforget
  | @ahead front hfront =>
      cases front with
      | nil =>
          have hys := hends ⟨hash, word, name, hhash, hword, hname, hfront⟩
          refine .none (by simp [hn]) (fun v hv hkind => ?_) hforget
          cases ys with
          | nil => cases hv
          | cons y ys =>
              cases hv
              have hline : v.kind ≠ .endLine := fun hline => by
                simp [hline] at hkind
              have hnext : next? (v :: ys) = some v := by
                rw [next?_eq, settled_cons.mpr hline, List.head?_cons]
              exact hys ⟨v, hnext, hkind⟩
      | cons v front =>
          by_cases hv : v.kind = .identifier
          · have hvline : v.kind ≠ .endLine := fun hline => by
              simp [hline] at hv
            exact .word hv rfl (hforget.pass hn hvline).2.forget
          · exact .none (by simpa using hv) (by simpa using hv) hforget

theorem readStatement_parted (hn : n.kind = .endLine)
    (hends : EndsInDefinition xs → ¬ Ahead .identifier ys) (scope : ScopeKind)
    {t : Token} {ts us : List Token}
    (h : Level (Parted xs n ys []) (t :: ts) (t :: us)) :
    Agreed (Level (Parted xs n ys [])) (Parted xs n ys []) Restated
      (readStatement scope t ts) (readStatement scope t us) := by
  by_cases hhash : t.kind = .hash
  · obtain ⟨-, hbehind⟩ := h.related.pass hn (settled_cons.mp h.left)
    rw [readStatement_of_hash hhash, readStatement_of_hash hhash]
    refine Paired.map (R := Eq) ?_ fun _ _ hsame => hsame ▸ .refl _
    refine (inStep_parted hn).readDirective (fun _ _ h => h.related)
      (hbehind.level hn) fun d e rest rest' hd he hdefine hlevel => ?_
    have hdirective := hbehind.skipLines hn
    rw [hd, he] at hdirective
    have hdline : d.kind ≠ .endLine := fun hline => by
      simp [Token.isWord, hline] at hdefine
    obtain ⟨rfl, hmore⟩ := hdirective.pass hn hdline
    refine (inStep_parted hn).readDefine hlevel
      fun m m' more more' hm hm' hname => ?_
    have hnamed := hmore.skipLines hn
    rw [hm, hm'] at hnamed
    have hmline : m.kind ≠ .endLine := fun hline => by simp [hline] at hname
    obtain ⟨rfl, hvalue⟩ := hnamed.pass hn hmline
    exact valued_of_parted hends hhash hdefine hname hn hvalue
  · exact ((inStep_parted hn).readStatement scope h hhash).mono_rests
      (fun _ _ => id) fun _ _ h => h.related

/-! ## Runs -/

/-- The same result, or the same fault at the same token. -/
inductive Alike {α : Type} : Except Failure α → Except Failure α → Prop where
  | ok {x : α} : Alike (.ok x) (.ok x)
  | error {fault : Fault} {rest rest' : List Token}
      (hfront : rest.head? = rest'.head?) :
      Alike (.error ⟨fault, rest⟩) (.error ⟨fault, rest'⟩)

theorem Alike.symm {α : Type} {r s : Except Failure α} (h : Alike r s) :
    Alike s r := by
  cases h with
  | ok => exact .ok
  | error hfront => exact .error hfront.symm

theorem Alike.eq_ok {α : Type} {x : α} {r s : Except Failure α}
    (h : Alike r s) (hr : r = .ok x) : s = .ok x := by
  cases h with
  | ok => exact hr
  | error => cases hr

/-- Runs from the same state do the same on streams that are parted. -/
theorem coupling_parted (hn : n.kind = .endLine)
    (hends : EndsInDefinition xs → ¬ Ahead .identifier ys) :
    Coupling (fun a ts b us => a = b ∧ Parted xs n ys [] ts us)
      (fun f g => f.fault = g.fault ∧ f.rest.head? = g.rest.head?) where
  skip h := ⟨h.1, h.2.skipLines hn⟩
  round {a b ts us} hts hus h := by
    obtain ⟨rfl, hparted⟩ := h
    have hlevel : Level (Parted xs n ys []) ts us := ⟨hts, hus, hparted⟩
    have hhead := Parted.head?_eq hn hlevel
    cases ts with
    | nil =>
        cases us with
        | nil => exact .ended
        | cons u us => cases hhead
    | cons t ts =>
        cases us with
        | nil => cases hhead
        | cons u us =>
            cases hhead
            have hagreed := readStatement_parted hn hends a.scopeKind hlevel
            obtain ⟨-, hbehind⟩ := hparted.pass hn (settled_cons.mp hts)
            have hsite : siteAhead ts = siteAhead us := by
              rw [siteAhead, next?_eq, Parted.head?_eq hn (hbehind.level hn),
                siteAhead, next?_eq]
            refine .read ?_
            generalize hread : readStatement a.scopeKind t ts = first
              at hagreed
            generalize hread' : readStatement a.scopeKind t us = second
              at hagreed
            cases hagreed with
            | ok hrestated hrest =>
                cases hrestated.eq_of_site hread hread' hsite
                exact .ok ⟨rfl, hrest⟩
            | error hrest hfault =>
                have hfront := Parted.head?_eq hn hrest
                exact .error
                  ⟨hfault (congrArg (Option.map Token.shape) hfront), hfront⟩

theorem run_parted (hn : n.kind = .endLine)
    (hends : EndsInDefinition xs → ¬ Ahead .identifier ys) (a : Assembly)
    {ts us : List Token} (h : Parted xs n ys [] ts us) :
    Alike (a.run ts) (a.run us) := by
  have hcoupled := (coupling_parted hn hends).run ⟨rfl (a := a), h⟩
  generalize a.run ts = first, a.run us = second at hcoupled
  cases hcoupled with
  | ok h =>
      cases h.1
      exact .ok
  | @error f g h =>
      rcases f with ⟨fault, rest⟩
      cases h.1
      exact .error h.2

/-! ## The parser -/

/-- A line end makes no difference, or the end of the input is reported with
and without it. -/
theorem parse_insert_lineEnd (hn : n.kind = .endLine)
    (hends : ¬ (EndsInDefinition xs ∧ Ahead .identifier ys)) :
    parse (xs ++ n :: ys) = parse (xs ++ ys) ∨
      ∃ kind,
        parse (xs ++ n :: ys) = .error
          ⟨.endOfInput kind, .point (endOffset (xs ++ n :: ys))⟩ ∧
        parse (xs ++ ys) = .error
          ⟨.endOfInput kind, .point (endOffset (xs ++ ys))⟩ := by
  have hparted : Parted xs n ys [] (xs ++ n :: ys) (xs ++ ys) :=
    .ahead List.suffix_rfl
  have halike := run_parted hn (not_and.mp hends) .start hparted
  unfold parse
  generalize hrun : Assembly.start.run (xs ++ n :: ys) = first at halike
  generalize hrun' : Assembly.start.run (xs ++ ys) = second at halike
  cases halike with
  | ok => exact .inl rfl
  | @error fault rest rest' hfront =>
      cases rest with
      | nil =>
          have hrest' : rest' = [] := List.head?_eq_none_iff.mp hfront.symm
          obtain ⟨kind, rfl⟩ := (composed_running .start).isLocal.endOfInput
            (running_eq_error.mpr hrun)
          exact .inr ⟨kind, rfl, by rw [hrest']; rfl⟩
      | cons t rest =>
          left
          simp only [Failure.report, ← hfront, List.head?_cons,
            Option.map_some, Option.getD_some]

end

/-- A line end behind the word `define`. -/
theorem parse_insert_lineEnd_behindDefine :
    (⟨.endLine, "", ⟨7, 8⟩⟩ : Token).kind = .endLine ∧
    ¬ (EndsInDefinition [⟨.hash, "", ⟨0, 1⟩⟩,
        ⟨.identifier, "define", ⟨1, 7⟩⟩] ∧
      Ahead .identifier [⟨.identifier, "A", ⟨8, 9⟩⟩,
        ⟨.identifier, "B", ⟨10, 11⟩⟩]) ∧
    parse [⟨.hash, "", ⟨0, 1⟩⟩, ⟨.identifier, "define", ⟨1, 7⟩⟩,
        ⟨.endLine, "", ⟨7, 8⟩⟩, ⟨.identifier, "A", ⟨8, 9⟩⟩,
        ⟨.identifier, "B", ⟨10, 11⟩⟩] =
      .ok { ModuleTree.empty with directives := [.define "A" (some "B")] } := by
  have hends : ¬ (EndsInDefinition [⟨.hash, "", ⟨0, 1⟩⟩,
        ⟨.identifier, "define", ⟨1, 7⟩⟩] ∧
      Ahead .identifier [⟨.identifier, "A", ⟨8, 9⟩⟩,
        ⟨.identifier, "B", ⟨10, 11⟩⟩]) := by
    rintro ⟨⟨hash, word, name, -, -, -, hsuffix⟩, -⟩
    have hlength := hsuffix.length_le
    simp [significant] at hlength
  have hrun : Assembly.start.run [⟨.hash, "", ⟨0, 1⟩⟩,
      ⟨.identifier, "define", ⟨1, 7⟩⟩, ⟨.identifier, "A", ⟨8, 9⟩⟩,
      ⟨.identifier, "B", ⟨10, 11⟩⟩] =
        .ok ⟨{ ModuleTree.empty with
          directives := [.define "A" (some "B")] }, ModuleTree.root, []⟩ :=
    run_eq_of_runningFor (by decide +kernel)
  have hparse := parse_eq_ok_of_run hrun rfl
  have hinsert := parse_insert_lineEnd (n := ⟨.endLine, "", ⟨7, 8⟩⟩) rfl hends
  simp only [List.cons_append, List.nil_append, hparse] at hinsert
  rcases hinsert with hinsert | ⟨_, -, herror⟩
  · exact ⟨rfl, hends, hinsert⟩
  · cases herror

end Idl
