import Idl.Reading.Type
import Idl.Reading.Value
import Idl.Statement

/-!
# Statements that declare

These stand outside all braces or in the braces of a module.  Each is read
from behind its keyword.
-/

namespace Idl

/-- A declared name as it is written, with the place where it starts. -/
structure Heading where
  name : String
  site : Span
  deriving DecidableEq, Repr

def heading (production : Production) : Reading Heading := do
  let site ← place
  let name ← declaredText production
  return ⟨name, site⟩

def readMember (production : Production) : Reading Member := do
  let type ← readType production
  let declared ← declarator production
  expect .semicolon production
  return ⟨declared.name, declared.bind type⟩

def readConstant : Reading Constant := do
  let type ← readType .constant
  let declared ← declarator .constant
  expect .equals .constant
  let value ← constantValue
  expect .semicolon .constant
  return ⟨declared.name, declared.bind type, value⟩

def readModule : Reading Statement := do
  let h ← heading .moduleName
  expect .openBrace .moduleName
  return .openModule h.name h.site

def readStruct : Reading Statement := do
  let h ← heading .structHeader
  let bases ← (do
    if ← eat .colon then declaredTexts .structBases else return [])
  expect .openBrace .structHeader
  return .openStruct h.name bases h.site

def readEnum : Reading Statement := do
  let h ← heading .enumHeader
  expect .openBrace .enumHeader
  return .openEnum h.name h.site

/-- The bases of an interface, up to the opening brace. -/
def interfaceBases : Reading (List String) := do
  let bases ← declaredTexts .interfaceBases
  expect .openBrace .interfaceBases
  return bases

/-- Fails where the header of an interface cannot go on. -/
def invalidInterface : Reading Statement := fun ts =>
  .error (.mismatch .openBrace .invalidInterface ts)

/-- An interface is declared by its name alone, or opened with or without
bases. -/
def readInterface : Reading Statement := do
  let h ← heading .interfaceHeader
  if ← eat .semicolon then
    return .declare (.interface ⟨h.name, [], []⟩)
  else if ← eat .openBrace then
    return .openInterface h.name [] h.site
  else if ← eat .colon then
    let bases ← interfaceBases
    return .openInterface h.name bases h.site
  else
    invalidInterface

def readUnion : Reading Statement := do
  let h ← heading .unionHeader
  expectWord "switch" .expectedSwitch
  expect .openRound .unionDiscriminant
  let discriminant ← readType .unionDiscriminant
  expect .closeRound .unionDiscriminant
  expect .openBrace .unionDiscriminant
  return .openUnion h.name discriminant h.site

def Keyword.statement : Keyword → Reading Statement
  | module => readModule
  | typedef => do
    let member ← readMember .typedef
    return .declare (.typedef member)
  | struct => readStruct
  | const => do
    let constant ← readConstant
    return .declare (.constant constant)
  | enum => readEnum
  | interface => readInterface
  | union => readUnion

/-! ## Progress -/

theorem consumes_heading (production : Production) :
    Consumes (heading production) :=
  keeps_place.bind_consumes fun _ =>
    (consumes_declaredText production).bind fun _ => keeps_pure _

theorem consumes_readMember (production : Production) :
    Consumes (readMember production) :=
  (consumes_readType production).bind fun _ =>
    (consumes_declarator production).keeps.bind fun _ =>
      (consumes_expect _ _).keeps.bind fun _ => keeps_pure _

theorem consumes_readConstant : Consumes readConstant :=
  (consumes_readType _).bind fun _ =>
    (consumes_declarator _).keeps.bind fun _ =>
      (consumes_expect _ _).keeps.bind fun _ =>
        consumes_constantValue.keeps.bind fun _ =>
          (consumes_expect _ _).keeps.bind fun _ => keeps_pure _

theorem consumes_readModule : Consumes readModule :=
  (consumes_heading _).bind fun _ =>
    (consumes_expect _ _).keeps.bind fun _ => keeps_pure _

theorem consumes_readStruct : Consumes readStruct := by
  refine (consumes_heading _).bind fun h => Keeps.bind ?_ fun bases =>
    (consumes_expect _ _).keeps.bind fun _ => keeps_pure _
  refine (keeps_eat _).bind fun found => ?_
  cases found with
  | false => exact keeps_pure _
  | true => exact (consumes_declaredTexts _).keeps

theorem consumes_readEnum : Consumes readEnum :=
  (consumes_heading _).bind fun _ =>
    (consumes_expect _ _).keeps.bind fun _ => keeps_pure _

theorem consumes_interfaceBases : Consumes interfaceBases :=
  (consumes_declaredTexts _).bind fun _ =>
    (consumes_expect _ _).keeps.bind fun _ => keeps_pure _

theorem keeps_invalidInterface : Keeps invalidInterface := by
  intro ts x rest h
  cases h

theorem consumes_readInterface : Consumes readInterface := by
  refine (consumes_heading _).bind fun h => ?_
  refine (keeps_eat _).bind fun forward => ?_
  cases forward with
  | true => exact keeps_pure _
  | false =>
    refine (keeps_eat _).bind fun plain => ?_
    cases plain with
    | true => exact keeps_pure _
    | false =>
      refine (keeps_eat _).bind fun derived => ?_
      cases derived with
      | true =>
        exact consumes_interfaceBases.keeps.bind fun _ => keeps_pure _
      | false => exact keeps_invalidInterface

theorem consumes_readUnion : Consumes readUnion :=
  (consumes_heading _).bind fun _ =>
    (consumes_expectWord _ _).keeps.bind fun _ =>
      (consumes_expect _ _).keeps.bind fun _ =>
        (consumes_readType _).keeps.bind fun _ =>
          (consumes_expect _ _).keeps.bind fun _ =>
            (consumes_expect _ _).keeps.bind fun _ => keeps_pure _

theorem consumes_keyword_statement (keyword : Keyword) :
    Consumes keyword.statement := by
  cases keyword with
  | module => exact consumes_readModule
  | typedef => exact (consumes_readMember _).bind fun _ => keeps_pure _
  | struct => exact consumes_readStruct
  | const => exact consumes_readConstant.bind fun _ => keeps_pure _
  | enum => exact consumes_readEnum
  | interface => exact consumes_readInterface
  | union => exact consumes_readUnion

end Idl
