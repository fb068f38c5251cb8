import Idl.Proofs.Grammar.Bodies

/-!
# Coupled runs

Two runs over two streams are compared.  What is to be said of them is left
open: a relation of states with what is still to be read, and a relation of
failures.  If every round keeps both, whole runs do (`Coupling.run`).

Line ends between two statements do not count.  So a round begins in front of a
token that is no line end, or behind the last one, on both sides.
-/

namespace Idl

open Grammar

section
variable (S : Assembly → List Token → Assembly → List Token → Prop)
  (F : Failure → Failure → Prop)

/-- The next states are related with what is left of the streams, or the
failures are related. -/
inductive Stepped (a b : Assembly) :
    Except Failure (Statement × List Token) →
      Except Failure (Statement × List Token) → Prop where
  | ok {s s' : Statement} {ts us : List Token}
      (h : S (a.apply s) ts (b.apply s') us) :
      Stepped a b (.ok (s, ts)) (.ok (s', us))
  | error {f g : Failure} (h : F f g) : Stepped a b (.error f) (.error g)

/-- Both streams are used up, or a statement is read from both. -/
inductive Round (a b : Assembly) : List Token → List Token → Prop where
  | ended : Round a b [] []
  | read {t u : Token} {ts us : List Token}
      (h : Stepped S F a b (readStatement a.scopeKind t ts)
        (readStatement b.scopeKind u us)) :
      Round a b (t :: ts) (u :: us)

/-- The relations are kept by the rounds of two runs. -/
structure Coupling : Prop where
  skip : ∀ {a b ts us}, S a ts b us → S a (skipLines ts) b (skipLines us)
  round : ∀ {a b ts us}, Settled ts → Settled us → S a ts b us →
    Round S F a b ts us

/-- The states at the ends of two runs are related, or their failures are. -/
inductive Coupled : Except Failure Assembly → Except Failure Assembly →
    Prop where
  | ok {a b : Assembly} (h : S a [] b []) : Coupled (.ok a) (.ok b)
  | error {f g : Failure} (h : F f g) : Coupled (.error f) (.error g)

end

/-- By induction on the length of the first stream; a relation of the states
is the invariant. -/
theorem Coupling.run {S : Assembly → List Token → Assembly → List Token → Prop}
    {F : Failure → Failure → Prop} (hcoupling : Coupling S F) {a b : Assembly}
    {ts us : List Token} (h : S a ts b us) :
    Coupled S F (a.run ts) (b.run us) := by
  induction hlength : ts.length using Nat.strongRecOn
    generalizing a b ts us with
  | ind n ih =>
      have hskip := hcoupling.skip h
      have hle := skipLines_length_le ts
      have hround := hcoupling.round (settled_skipLines ts)
        (settled_skipLines us) hskip
      rw [← run_skipLines a ts, ← run_skipLines b us]
      generalize skipLines ts = ts, skipLines us = us at hskip hle hround
      cases hround with
      | ended =>
          rw [Assembly.run_nil, Assembly.run_nil]
          exact .ok hskip
      | @read t u ts us hstepped =>
          rw [Assembly.run_cons, Assembly.run_cons]
          generalize hread : readStatement a.scopeKind t ts = first
            at hstepped
          generalize readStatement b.scopeKind u us = second at hstepped
          cases hstepped with
          | ok hnext =>
              have hlt := readStatement_length_le hread
              rw [List.length_cons] at hle
              exact ih _ (by omega) hnext rfl
          | error hfailure => exact .error hfailure

end Idl
