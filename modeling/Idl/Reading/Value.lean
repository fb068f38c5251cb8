import Idl.Reading

/-!
# Reading constant values

The value of a constant is kept as text.  It starts with a word or a literal
and runs over all words, literals and opening angle brackets behind; their
texts are put together without anything between, whatever line ends stand
among them.  A value that starts with a literal gets its quotes back around
the whole.
-/

namespace Idl

/-- The token may stand in a value; line ends there mean nothing. -/
def inValue (t : Token) : Bool :=
  t.kind == .identifier || t.kind == .literal || t.kind == .less ||
    t.kind == .endLine

/-- What a token adds to the text of a value. -/
def valuePart (t : Token) : String :=
  match t.kind with
  | .identifier | .literal => t.text
  | .less => "<"
  | _ => ""

def valueText (ts : List Token) : String :=
  String.join (ts.map valuePart)

def constantValue : Reading String
  | [] => .error (.expected .identifier .constantValue [])
  | t :: ts =>
    let text := valueText ((t :: ts).takeWhile inValue)
    let rest := (t :: ts).dropWhile inValue
    match t.kind with
    | .identifier => .ok (text, rest)
    | .literal => .ok ("\"" ++ text ++ "\"", rest)
    | _ => .error (.expected .identifier .constantValue (t :: ts))

theorem consumes_constantValue : Consumes constantValue := by
  intro ts x rest h
  cases ts with
  | nil => cases h
  | cons t ts =>
    have hdrop : inValue t = true →
        ((t :: ts).dropWhile inValue).length < (t :: ts).length := by
      intro ht
      rw [List.dropWhile_cons_of_pos ht]
      exact Nat.lt_succ_of_le (List.dropWhile_suffix _).length_le
    simp only [constantValue] at h
    split at h
    · next hkind =>
      cases h
      exact hdrop (by simp [inValue, hkind])
    · next hkind =>
      cases h
      exact hdrop (by simp [inValue, hkind])
    · cases h

end Idl
