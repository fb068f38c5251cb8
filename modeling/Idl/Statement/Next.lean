import Idl.Statement.Filling

/-!
# The next statement

The first token and the kind of the scope decide what is read.  A directive
may stand anywhere, a closing brace anywhere but outside all braces, and a
word starts whatever the scope holds; any other token is skipped.  Every
statement takes at least one token, which is `readStatement_length_le`.
-/

namespace Idl

/-- Reads a definition from behind its word.  A value is taken only if it
follows the name without a line end between. -/
def readDefine : Reading Directive := do
  let name ← wordOnLine .directive
  if ← ahead .identifier then
    let value ← wordOnLine .directive
    return .define name (some value)
  else
    return .define name none

def readInclude : Reading Directive := do
  let path ← textOnLine .literal .directive
  nextLine
  return .include path

def readDirective : Reading Directive
  | [] => .error (.expected .identifier .directive [])
  | t :: ts =>
    if t.kind = .identifier then
      if t.text = "define" then readDefine (skipLines ts)
      else if t.text = "include" then readInclude (skipLines ts)
      else .error ⟨.unknownDirective t.text, t :: ts⟩
    else
      .error (.expected .identifier .directive (t :: ts))

def readWordStatement (scope : ScopeKind) (t : Token) (ts : List Token) :
    Except Failure (Statement × List Token) :=
  match scope with
  | .global | .module =>
    match Keyword.ofWord? t.text with
    | none => .error ⟨.unexpectedKeyword t.text scope, t :: ts⟩
    | some keyword => keyword.statement (skipLines ts)
  | .struct => (Statement.member <$> readMember .structMember) (t :: ts)
  | .enum => (Statement.enumerator <$> readEnumerator) (t :: ts)
  | .interface => (Statement.method <$> readMethod) (t :: ts)
  | .union => (Statement.unionCase <$> readCase) (t :: ts)

/-- Reads the statement that starts with the token `t` in a scope of the
given kind. -/
def readStatement (scope : ScopeKind) (t : Token) (ts : List Token) :
    Except Failure (Statement × List Token) :=
  match t.kind with
  | .hash => (Statement.directive <$> readDirective) (skipLines ts)
  | .identifier => readWordStatement scope t ts
  | .closeBrace =>
    if scope = .global then
      .error ⟨.unmatchedClose, t :: ts⟩
    else
      .ok (.close, skipLines ts)
  | _ => .ok (.skip, skipLines ts)

/-! ## Progress -/

theorem Consumes.map {α β : Type} {r : Reading α} (h : Consumes r)
    (f : α → β) : Consumes (f <$> r) := by
  intro ts y rest hy
  rw [map_eq_pure_bind] at hy
  exact h.bind (fun x => keeps_pure (f x)) ts y rest hy

theorem consumes_readDefine : Consumes readDefine := by
  refine (consumes_textOnLine _ _).bind fun name =>
    (keeps_ahead _).bind fun valued => ?_
  cases valued with
  | false => exact keeps_pure _
  | true => exact (consumes_textOnLine _ _).keeps.bind fun _ => keeps_pure _

theorem consumes_readInclude : Consumes readInclude :=
  (consumes_textOnLine _ _).bind fun _ =>
    keeps_nextLine.bind fun _ => keeps_pure _

theorem consumes_readDirective : Consumes readDirective := by
  intro ts x rest h
  cases ts with
  | nil => cases h
  | cons t ts =>
    have hskip := skipLines_length_le ts
    rw [readDirective] at h
    split at h
    · split at h
      · have hlt := consumes_readDefine _ _ _ h
        simp only [List.length_cons]
        omega
      · split at h
        · have hlt := consumes_readInclude _ _ _ h
          simp only [List.length_cons]
          omega
        · cases h
    · cases h

theorem readWordStatement_length_le {scope : ScopeKind} {t : Token}
    {ts rest : List Token} {s : Statement}
    (h : readWordStatement scope t ts = .ok (s, rest)) :
    rest.length ≤ ts.length := by
  have hskip := skipLines_length_le ts
  have hfill : ∀ {α : Type} {f : α → Statement} {r : Reading α},
      Consumes r → (f <$> r) (t :: ts) = .ok (s, rest) →
        rest.length ≤ ts.length :=
    fun hr heq => Nat.le_of_lt_succ ((hr.map _) _ _ _ heq)
  have hdeclare : ∀ scope,
      (match Keyword.ofWord? t.text with
        | none => .error ⟨.unexpectedKeyword t.text scope, t :: ts⟩
        | some keyword => keyword.statement (skipLines ts)) =
          Except.ok (s, rest) →
        rest.length ≤ ts.length := by
    intro scope hk
    split at hk
    · cases hk
    · have hlt := consumes_keyword_statement _ _ _ _ hk
      omega
  cases scope with
  | global => exact hdeclare .global h
  | module => exact hdeclare .module h
  | struct => exact hfill (consumes_readMember _) h
  | enum => exact hfill consumes_readEnumerator h
  | interface => exact hfill consumes_readMethod h
  | union => exact hfill consumes_readCase h

/-- A statement takes at least its first token. -/
theorem readStatement_length_le {scope : ScopeKind} {t : Token}
    {ts rest : List Token} {s : Statement}
    (h : readStatement scope t ts = .ok (s, rest)) :
    rest.length ≤ ts.length := by
  have hskip := skipLines_length_le ts
  unfold readStatement at h
  split at h
  · have hlt := (consumes_readDirective.map _) _ _ _ h
    omega
  · exact readWordStatement_length_le h
  · split at h
    · cases h
    · cases h
      exact hskip
  · cases h
    exact hskip

end Idl
