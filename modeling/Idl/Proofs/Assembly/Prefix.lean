import Idl.Parse
import Idl.Proofs.Assembly.Room

/-!
# Faults and the end of the input

The parser reports a token at once, when no source that starts like this one
can be right, and it reports the end of the input only when some source that
starts like this one is right.

A run is a reading as well: it reads one statement and runs on in the state
behind it.  So it decides by what it has seen.  Where it has run out of tokens
the statement it was in is completed first, and then the scopes that are open
are closed from the inside.
-/

namespace Idl

/-! ## Runs as readings -/

def running (a : Assembly) : Reading Assembly := fun ts =>
  match a.run ts with
  | .error e => .error e
  | .ok b => .ok (b, [])

/-- A run that stops after some number of statements. -/
def runningFor : Nat → Assembly → Reading Assembly
  | 0, a => pure a
  | n + 1, a => do
    let s ← nextStatement a.scopeKind
    runningFor n (a.apply s)

theorem runningFor_nil (n : Nat) (a : Assembly) :
    runningFor n a [] = .ok (a, []) := by
  induction n with
  | zero => rfl
  | succ n ih => exact ih

theorem runningFor_eq (n : Nat) (a : Assembly) (ts : List Token)
    (hlength : ts.length < n) : runningFor n a ts = running a ts := by
  induction n generalizing a ts with
  | zero => exact absurd hlength (Nat.not_lt_zero _)
  | succ n ih =>
      cases ts with
      | nil =>
          rw [runningFor_nil, running, Assembly.run_nil]
      | cons t ts =>
          rw [running, Assembly.run_cons]
          cases hread : readStatement a.scopeKind t ts with
          | error e => exact reading_bind_eq_of_error hread
          | ok p =>
              rcases p with ⟨s, rest⟩
              have hnext : nextStatement a.scopeKind (t :: ts) =
                  .ok (s, rest) := hread
              have hrest := readStatement_length_le hread
              rw [List.length_cons] at hlength
              rw [runningFor, reading_bind_eq_of_ok hnext]
              exact ih (a.apply s) rest (by omega)

/-- A run can be followed step by step. -/
theorem run_eq_of_runningFor {a b : Assembly} {ts : List Token}
    (h : runningFor (ts.length + 1) a ts = .ok (b, [])) : a.run ts = .ok b := by
  rw [runningFor_eq _ a ts (Nat.lt_succ_self _), running] at h
  cases hrun : a.run ts with
  | error e =>
      rw [hrun] at h
      cases h
  | ok c =>
      rw [hrun] at h
      cases h
      rfl

theorem composed_runningFor (n : Nat) (a : Assembly) :
    Composed (runningFor n a) := by
  induction n generalizing a with
  | zero => exact .pure a
  | succ n ih => exact (Composed.nextStatement _).bind fun s => ih (a.apply s)

theorem composed_running (a : Assembly) : Composed (running a) :=
  .limit (fun n => composed_runningFor n a) fun n ts => runningFor_eq n a ts

theorem running_eq_error {a : Assembly} {ts : List Token} {e : Failure} :
    running a ts = .error e ↔ a.run ts = .error e := by
  unfold running
  cases a.run ts <;> simp

/-- What a statement at the end of the input may still take. -/
def openKinds : List TokenKind := [.identifier, .comma, .semicolon]

theorem run_eq_of_readStatement {a : Assembly} {t : Token}
    {ts rest : List Token} {s : Statement}
    (h : readStatement a.scopeKind t ts = .ok (s, rest)) :
    a.run (t :: ts) = (a.apply s).run rest := by
  rw [Assembly.run_cons, h]

theorem readStatement_append {scope : ScopeKind} {t : Token}
    {ts rest us : List Token} {s : Statement}
    (h : readStatement scope t ts = .ok (s, rest))
    (hus : rest = [] → Stopped openKinds us) :
    readStatement scope t (ts ++ us) = .ok (s, rest ++ us) := by
  have hnext : nextStatement scope (t :: ts) = .ok (s, rest) := h
  by_cases hrest : rest = []
  · subst hrest
    exact (completesAt_nextStatement scope t ts).ended hnext us (hus rfl)
  · exact (Composed.nextStatement scope).isLocal.append_ok hnext hrest us

section
variable {ts : List Token} {e : ParseError}

theorem parse_eq_ok_of_run {a : Assembly} (h : Assembly.start.run ts = .ok a)
    (hscopes : a.scopes = []) : parse ts = .ok a.tree := by
  rw [parse, h]
  simp only [hscopes]

theorem parse_eq_error_of_readStatement {t : Token} {failure : Failure}
    (h : readStatement .global t ts = .error failure) :
    parse (t :: ts) = .error (failure.report (endOffset (t :: ts))) := by
  have hread : readStatement Assembly.start.scopeKind t ts = .error failure := h
  rw [parse, Assembly.run_cons, hread]

end

end Idl
