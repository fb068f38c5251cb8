import Idl.Proofs.Assembly.Spans
import Idl.Proofs.Reading.Loops

/-!
# Progress

Whatever is read, and from whatever place of the list on, reading leads on:
what succeeds has taken a token, and what fails stands no further in front
than it started.  At the end of the list there is nothing to take, so there
everything fails.

That is why every loop ends.  The loops inside the readings were bounded by
the tokens that are left; the run over the statements is one loop more, and a
statement takes at least the token it starts with.
-/

namespace Idl

/-! ## Places in a list -/

/-- The outcome of a reading that starts at the place `i` of a list: it leaves
a later place, at most the end of the list, or it fails at a place that is not
in front of `i`. -/
inductive Forward {α : Type} (ts : List Token) (i : Nat) :
    Except Failure (α × List Token) → Prop where
  | ok (x : α) {j : Nat} (hlater : i < j) (hend : j ≤ ts.length) :
      Forward ts i (.ok (x, ts.drop j))
  | error (fault : Fault) {j : Nat} (hback : i ≤ j) (hend : j ≤ ts.length) :
      Forward ts i (.error ⟨fault, ts.drop j⟩)

/-- From every place of the list the reading leads forward. -/
def LeadsOn {α : Type} (ts : List Token) (r : Reading α) : Prop :=
  ∀ i ≤ ts.length, Forward ts i (r (ts.drop i))

section
variable {α : Type} {ts rest : List Token} {i : Nat}

theorem eq_drop_of_suffix (h : rest <:+ ts.drop i) :
    rest = ts.drop (ts.length - rest.length) :=
  List.suffix_iff_eq_drop.mp (h.trans (List.drop_suffix i ts))

theorem forward_of_suffix {outcome : Except Failure (α × List Token)}
    (hi : i ≤ ts.length)
    (hok : ∀ x rest, outcome = .ok (x, rest) →
      rest <:+ ts.drop i ∧ rest.length < (ts.drop i).length)
    (herror : ∀ fault rest, outcome = .error ⟨fault, rest⟩ →
      rest <:+ ts.drop i) : Forward ts i outcome := by
  rcases outcome with ⟨fault, rest⟩ | ⟨x, rest⟩
  · have hsuffix := herror fault rest rfl
    have hlength := hsuffix.length_le
    rw [List.length_drop] at hlength
    rw [eq_drop_of_suffix hsuffix]
    exact .error fault (by omega) (Nat.sub_le _ _)
  · obtain ⟨hsuffix, hlength⟩ := hok x rest rfl
    rw [List.length_drop] at hlength
    rw [eq_drop_of_suffix hsuffix]
    exact .ok x (by omega) (Nat.sub_le _ _)

theorem Composed.leadsOn {r : Reading α} (hr : Composed r)
    (hconsumes : Consumes r) (ts : List Token) : LeadsOn ts r := fun _ hi =>
  forward_of_suffix hi
    (fun x rest h => ⟨hr.isLocal.suffix_ok h, hconsumes _ x rest h⟩)
    (fun _ _ h => hr.isLocal.suffix_error h)

end

/-! ## Statements -/

theorem keeps_takeAny : Keeps takeAny := fun _ _ _ h =>
  (local_takeAny.suffix_ok h).length_le

section
variable {ts us : List Token} {t : Token} {i : Nat}

theorem lt_length_of_drop (h : ts.drop i = t :: us) : i < ts.length := by
  have hlength := congrArg List.length h
  rw [List.length_drop, List.length_cons] at hlength
  omega

/-- A keyword is known by its text alone, so the token in front may be of any
kind. -/
theorem forward_readWordStatement (scope : ScopeKind)
    (h : ts.drop i = t :: us) :
    Forward ts i (readWordStatement scope t us) := by
  have hi := Nat.le_of_lt (lt_length_of_drop h)
  have hfill : ∀ {β : Type} {r : Reading β} (f : β → Statement),
      Composed r → Consumes r → Forward ts i ((f <$> r) (t :: us)) :=
    fun f hr hconsumes =>
      h ▸ (hr.map f).leadsOn (hconsumes.map f) ts i hi
  have hdeclare : scope = .global ∨ scope = .module →
      Forward ts i (readWordStatement scope t us) := by
    intro hscope
    cases hword : Keyword.ofWord? t.text with
    | none =>
        have hread : readWordStatement scope t us =
            .error ⟨.unexpectedKeyword t.text scope, t :: us⟩ := by
          rcases hscope with rfl | rfl <;> simp only [readWordStatement, hword]
        rw [hread, ← h]
        exact .error _ (Nat.le_refl i) hi
    | some keyword =>
        have hread : readWordStatement scope t us =
            keyword.statement (skipLines us) := by
          rcases hscope with rfl | rfl <;> simp only [readWordStatement, hword]
        -- With the keyword in front this is a reading that first takes a token.
        have hbehind : Composed (takeAny >>= fun _ => keyword.statement) :=
          Composed.takeAny.bind fun _ => Composed.keyword_statement keyword
        have hconsumes : Consumes (takeAny >>= fun _ => keyword.statement) :=
          keeps_takeAny.bind_consumes fun _ =>
            consumes_keyword_statement keyword
        have hforward := hbehind.leadsOn hconsumes ts i hi
        rw [h, reading_bind_eq_of_ok rfl] at hforward
        rw [hread]
        exact hforward
  cases scope with
  | global => exact hdeclare (.inl rfl)
  | module => exact hdeclare (.inr rfl)
  | struct =>
      exact hfill _ (Composed.readMember _) (consumes_readMember _)
  | enum => exact hfill _ Composed.readEnumerator consumes_readEnumerator
  | interface => exact hfill _ Composed.readMethod consumes_readMethod
  | union => exact hfill _ Composed.readCase consumes_readCase

theorem forward_readStatement (scope : ScopeKind) (h : ts.drop i = t :: us) :
    Forward ts i (readStatement scope t us) := by
  have hlocal := (Composed.nextStatement scope).isLocal
  refine forward_of_suffix (Nat.le_of_lt (lt_length_of_drop h)) ?_ ?_
  · intro s rest hread
    have hnext : nextStatement scope (t :: us) = .ok (s, rest) := hread
    rw [h]
    exact ⟨hlocal.suffix_ok hnext,
      Nat.lt_succ_of_le (readStatement_length_le hread)⟩
  · intro fault rest hread
    have hnext : nextStatement scope (t :: us) = .error ⟨fault, rest⟩ := hread
    rw [h]
    exact hlocal.suffix_error hnext

theorem Reached.forward {a : Assembly} (h : Reached ts a (t :: us)) :
    ∃ i, ts.drop i = t :: us ∧
      Forward ts i (readStatement a.scopeKind t us) := by
  have hdrop := (List.suffix_iff_eq_drop.mp h.suffix).symm
  exact ⟨_, hdrop, forward_readStatement a.scopeKind hdrop⟩

end

/-! ## The run -/

def statementRound (a : Assembly) : Reading (ForInStep Assembly)
  | [] => .ok (.done a, [])
  | t :: ts =>
    match readStatement a.scopeKind t ts with
    | .error e => .error e
    | .ok (s, rest) => .ok (.yield (a.apply s), rest)

/-- Reads and applies statements, as long as there are no more than `n`. -/
def runUpTo (a : Assembly) (n : Nat) : Limited Assembly :=
  loopUpTo (fun a => limited (statementRound a)) n a

theorem unrolls_run : Unrolls statementRound running fun _ => True where
  unroll := by
    rintro a (_ | ⟨t, ts⟩) -
    · rw [running, Assembly.run_nil]
      rfl
    cases hread : readStatement a.scopeKind t ts with
    | error e =>
        have hround : statementRound a (t :: ts) = .error e := by
          rw [statementRound, hread]
        rw [running, Assembly.run_cons, hread, reading_bind_eq_of_error hround]
    | ok p =>
        obtain ⟨s, rest⟩ := p
        have hround : statementRound a (t :: ts) =
            .ok (.yield (a.apply s), rest) := by
          rw [statementRound, hread]
        rw [running, run_eq_of_readStatement hread,
          reading_bind_eq_of_ok hround]
        rfl
  progress := by
    rintro a b (_ | ⟨t, ts⟩) rest - h
    · cases h
    rw [statementRound] at h
    split at h
    · cases h
    · next hread =>
      cases h
      exact ⟨Nat.lt_succ_of_le (readStatement_length_le hread), trivial⟩

theorem suffices_run (a : Assembly) : Suffices (runUpTo a) (running a) :=
  fun _ _ hn => unrolls_run.loopUpTo_eq (fun _ _ _ => rfl) hn hn trivial a

/-! ## Everything that is read -/

/-- Reading leads forward from every place of the list, in every scope and
for every production.  A directive and what a word starts are read with the
mark or the word in front; `statement` is about the states of the run. -/
structure Progressive (ts : List Token) : Prop where
  directive : ∀ scope i t us, ts.drop i = t :: us → t.kind = .hash →
    Forward ts i (readStatement scope t us)
  word : ∀ scope i t us, ts.drop i = t :: us →
    Forward ts i (readWordStatement scope t us)
  type : ∀ production, LeadsOn ts (readType production)
  name : ∀ production, LeadsOn ts (declarator production)
  value : LeadsOn ts constantValue
  bases : ∀ production, LeadsOn ts (declaredTexts production)
  parameter : LeadsOn ts readParameter
  statement : ∀ a t us, Reached ts a (t :: us) → ∃ i, ts.drop i = t :: us ∧
    Forward ts i (readStatement a.scopeKind t us)

/-- As many rounds as there are tokens left suffice for every loop, and as
many levels for types inside types. -/
structure Bounded : Prop where
  lines : Suffices linesUpTo nextLine
  segments : ∀ production,
    Suffices (followedUpTo .namespaces (limited (word production)))
      (moreSegments production)
  bases : ∀ production,
    Suffices (separatedUpTo .comma (limited (declaredText production)))
      (declaredTexts production)
  commas : Suffices enumeratorUpTo readEnumerator
  parameters : Suffices parametersUpTo readParameters
  value : Suffices valueUpTo constantValue
  types : ∀ production, Suffices (typeUpTo production) (readType production)
  run : ∀ a, Suffices (runUpTo a) (running a)

theorem readings_progressive_and_bounded (ts : List Token) :
    Progressive ts ∧ Bounded := by
  refine ⟨?_, ?_⟩
  · exact {
      directive := fun scope _ _ _ h _ => forward_readStatement scope h
      word := fun scope _ _ _ h => forward_readWordStatement scope h
      type := fun production =>
        (Composed.readType production).leadsOn (consumes_readType production) ts
      name := fun production => (Composed.declarator production).leadsOn
        (consumes_declarator production) ts
      value := Composed.constantValue.leadsOn consumes_constantValue ts
      bases := fun production => (Composed.declaredTexts production).leadsOn
        (consumes_declaredTexts production) ts
      parameter := Composed.readParameter.leadsOn consumes_readParameter ts
      statement := fun _ _ _ h => h.forward }
  · exact {
      lines := suffices_lines
      segments := fun _ _ _ hn => followedUpTo_eq (fun _ _ => rfl) hn _
      bases := fun _ _ _ hn => separatedUpTo_eq (fun _ _ => rfl) hn _
      commas := suffices_enumerator
      parameters := suffices_parameters
      value := suffices_value
      types := suffices_type
      run := suffices_run }

end Idl
