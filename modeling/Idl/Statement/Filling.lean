import Idl.Statement.Declaring

/-!
# Statements that fill a declaration

These stand in the braces of a structure, an enumeration, an interface or a
union, and add one member each.
-/

namespace Idl

/-- Drops commas and the line ends among them. -/
def skipCommas : Reading Unit := fun ts =>
  .ok ((), ts.dropWhile fun t => t.kind == .comma || t.kind == .endLine)

def readEnumerator : Reading String := do
  let name ← word .enumerator
  skipCommas
  return name

def readDirection : Reading Direction
  | [] => .error (.expected .identifier .parameter [])
  | t :: ts =>
    if t.kind = .identifier then
      match Direction.ofWord? t.text with
      | none => .error ⟨.invalidDirection t.describe, t :: ts⟩
      | some direction => .ok (direction, skipLines ts)
    else
      .error (.expected .identifier .parameter (t :: ts))

/-- A parameter; its name may be missing. -/
def readParameter : Reading Parameter := do
  let direction ← readDirection
  let type ← readType .parameter
  if ← ahead .identifier then
    let declared ← declarator .parameter
    return ⟨direction, declared.bind type, some declared.name⟩
  else
    return ⟨direction, type, none⟩

theorem consumes_readDirection : Consumes readDirection := by
  intro ts x rest h
  cases ts with
  | nil => cases h
  | cons t ts =>
    rw [readDirection] at h
    split at h
    · split at h
      · cases h
      · cases h
        exact Nat.lt_succ_of_le (skipLines_length_le ts)
    · cases h

theorem consumes_readParameter : Consumes readParameter := by
  refine consumes_readDirection.bind fun direction =>
    (consumes_readType _).keeps.bind fun type =>
      (keeps_ahead _).bind fun named => ?_
  cases named with
  | false => exact keeps_pure _
  | true => exact (consumes_declarator _).keeps.bind fun _ => keeps_pure _

/-- The parameters of a method up to the closing bracket.  The semicolon is
needed only where there are none. -/
def readParameters : Reading (List Parameter) := do
  if ← eat .closeRound then
    expect .semicolon .method
    return []
  else
    let parameters ← separated .comma readParameter consumes_readParameter
    expect .closeRound .parameter
    let _ ← eat .semicolon
    return parameters

def readMethod : Reading Method := do
  let result ← readType .method
  let name ← declaredText .method
  expect .openRound .method
  let parameters ← readParameters
  return ⟨name, result, parameters⟩

def readCase : Reading UnionCase := do
  expectWord "case" .expectedCase
  expect .openRound .unionCase
  let selector ← readType .unionCase
  expect .closeRound .unionCase
  expect .colon .unionCase
  let member ← readMember .unionCase
  return ⟨selector, member.type, member.name⟩

/-! ## Progress -/

theorem keeps_skipCommas : Keeps skipCommas := by
  intro ts x rest h
  cases h
  exact (List.dropWhile_suffix _).length_le

theorem consumes_readEnumerator : Consumes readEnumerator :=
  (consumes_word _).bind fun _ => keeps_skipCommas.bind fun _ => keeps_pure _

theorem keeps_readParameters : Keeps readParameters := by
  refine (keeps_eat _).bind fun closed => ?_
  cases closed with
  | true => exact (consumes_expect _ _).keeps.bind fun _ => keeps_pure _
  | false =>
    exact (consumes_separated _ _ _).keeps.bind fun _ =>
      (consumes_expect _ _).keeps.bind fun _ =>
        (keeps_eat _).bind fun _ => keeps_pure _

theorem consumes_readMethod : Consumes readMethod :=
  (consumes_readType _).bind fun _ =>
    (consumes_declaredText _).keeps.bind fun _ =>
      (consumes_expect _ _).keeps.bind fun _ =>
        keeps_readParameters.bind fun _ => keeps_pure _

theorem consumes_readCase : Consumes readCase :=
  (consumes_expectWord _ _).bind fun _ =>
    (consumes_expect _ _).keeps.bind fun _ =>
      (consumes_readType _).keeps.bind fun _ =>
        (consumes_expect _ _).keeps.bind fun _ =>
          (consumes_expect _ _).keeps.bind fun _ =>
            (consumes_readMember _).keeps.bind fun _ => keeps_pure _

end Idl
