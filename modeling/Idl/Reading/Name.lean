import Idl.Reading.Sequence
import Idl.Type

/-!
# Reading names

A name is one word or several, with the namespace mark between them.  A
declared name may carry a size in square brackets.
-/

namespace Idl

/-- The segments behind a first one, as they continue the name. -/
def qualified (name : String) (segments : List String) : String :=
  String.intercalate "::" (name :: segments)

def moreSegments (production : Production) : Reading (List String) :=
  followed .namespaces (word production) (consumes_word production)

def arraySize (production : Production) : Reading (Option String) := do
  if ← eat .openSquare then
    let quantity ← word production
    expect .closeSquare production
    return some quantity
  else
    return none

def declarator (production : Production) : Reading Declarator := do
  let first ← word production
  let segments ← moreSegments production
  let quantity ← arraySize production
  return ⟨qualified first segments, quantity⟩

def declaredText (production : Production) : Reading String := do
  let declared ← declarator production
  return declared.text

theorem keeps_moreSegments (production : Production) :
    Keeps (moreSegments production) :=
  keeps_followed _ _ _

theorem keeps_arraySize (production : Production) :
    Keeps (arraySize production) := by
  refine (keeps_eat _).bind fun found => ?_
  cases found with
  | false => exact keeps_pure _
  | true =>
    exact (consumes_word production).keeps.bind fun quantity =>
      (consumes_expect _ _).keeps.bind fun _ => keeps_pure _

theorem consumes_declarator (production : Production) :
    Consumes (declarator production) :=
  (consumes_word production).bind fun _ =>
    (keeps_moreSegments production).bind fun _ =>
      (keeps_arraySize production).bind fun _ => keeps_pure _

theorem consumes_declaredText (production : Production) :
    Consumes (declaredText production) :=
  (consumes_declarator production).bind fun _ => keeps_pure _

/-- Reads names as they are written, with commas between them. -/
def declaredTexts (production : Production) : Reading (List String) :=
  separated .comma (declaredText production) (consumes_declaredText production)

theorem consumes_declaredTexts (production : Production) :
    Consumes (declaredTexts production) :=
  consumes_separated _ _ _

end Idl
