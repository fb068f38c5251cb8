import Idl.Reading.Name

/-!
# Reading types

A type starts with a word.  Arguments in angle brackets come directly behind
that word; then the word is completed to a name: `unsigned` takes one more
word, `long` and `unsigned long` take a second `long` if one follows, and
segments behind namespace marks come last.

Arguments are types again, so reading a type and reading a list of arguments
call each other.  Inside the recursion every result carries the proof that
tokens were taken; `readType_eq` and `readArguments_eq` state what the two do
without it.
-/

namespace Idl

/-- Reads the second word of a name that starts with `unsigned`. -/
def withSign (production : Production) (first : String) : Reading String := do
  if first = "unsigned" then
    let second ← word production
    return "unsigned " ++ second
  else
    return first

def withLength (name : String) : Reading String := do
  if name = "long" ∨ name = "unsigned long" then
    if ← eatWord "long" then
      return name ++ " long"
    else
      return name
  else
    return name

/-- Completes the first word of a type to its name. -/
def typeName (production : Production) (first : String) : Reading String := do
  let signed ← withSign production first
  let name ← withLength signed
  let segments ← moreSegments production
  return qualified name segments

theorem keeps_typeName (production : Production) (first : String) :
    Keeps (typeName production first) := by
  refine Keeps.bind ?_ fun signed => Keeps.bind ?_ fun name =>
    (keeps_moreSegments production).bind fun _ => keeps_pure _
  · unfold withSign
    split
    · exact (consumes_word production).keeps.bind fun _ => keeps_pure _
    · exact keeps_pure _
  · unfold withLength
    split
    · refine (keeps_eatWord _).bind fun found => ?_
      cases found <;> exact keeps_pure _
    · exact keeps_pure _

/-- A result together with what is left of a stream, which is shorter. -/
abbrev Shorter (α : Type) (ts : List Token) :=
  { result : α × List Token // result.2.length < ts.length }

mutual
def typeWithin (production : Production) (ts : List Token) :
    Except Failure (Shorter TypeRef ts) :=
  match hw : word production ts with
  | .error failure => .error failure
  | .ok (first, rest) =>
    have hrest : rest.length < ts.length :=
      consumes_word production ts first rest hw
    match hl : eat? .less rest with
    | none =>
      match hn : typeName production first rest with
      | .error failure => .error failure
      | .ok (name, rest') =>
        .ok ⟨(⟨name, none, []⟩, rest'),
          Nat.lt_of_le_of_lt (keeps_typeName _ _ _ _ _ hn) hrest⟩
    | some inner =>
      have hinner : inner.length < ts.length :=
        Nat.lt_trans (eat?_length_lt hl) hrest
      match argumentsWithin inner with
      | .error failure => .error failure
      | .ok ⟨(arguments, mid), hmid⟩ =>
        match hn : typeName production first mid with
        | .error failure => .error failure
        | .ok (name, rest') =>
          .ok ⟨(⟨name, none, arguments⟩, rest'),
            Nat.lt_of_le_of_lt (keeps_typeName _ _ _ _ _ hn)
              (Nat.lt_trans hmid hinner)⟩
termination_by (ts.length, 0)
/-- Reads the arguments of a template up to the closing bracket, with proof
of progress. -/
def argumentsWithin (ts : List Token) :
    Except Failure (Shorter (List TypeRef) ts) :=
  match typeWithin .templateArguments ts with
  | .error failure => .error failure
  | .ok ⟨(argument, rest), hrest⟩ =>
    match hc : eat? .comma rest with
    | none =>
      match hg : expect .greater .templateArguments rest with
      | .error failure => .error failure
      | .ok ((), rest') =>
        .ok ⟨([argument], rest'),
          Nat.lt_trans (consumes_expect _ _ _ _ _ hg) hrest⟩
    | some more =>
      have hmore : more.length < ts.length :=
        Nat.lt_trans (eat?_length_lt hc) hrest
      match argumentsWithin more with
      | .error failure => .error failure
      | .ok ⟨(arguments, rest'), hrest'⟩ =>
        .ok ⟨(argument :: arguments, rest'), Nat.lt_trans hrest' hmore⟩
termination_by (ts.length, 1)
end

def readType (production : Production) : Reading TypeRef := fun ts =>
  (typeWithin production ts).map Subtype.val

def readArguments : Reading (List TypeRef) := fun ts =>
  (argumentsWithin ts).map Subtype.val

theorem consumes_readType (production : Production) :
    Consumes (readType production) := by
  intro ts x rest h
  unfold readType at h
  cases hr : typeWithin production ts with
  | error failure =>
    rw [hr] at h
    cases h
  | ok result =>
    rw [hr] at h
    obtain ⟨⟨x', rest'⟩, hrest'⟩ := result
    cases h
    exact hrest'

/-- A type is a word, its arguments if there are any, and the rest of its
name. -/
theorem readType_eq (production : Production) :
    readType production = (do
      let first ← word production
      let arguments ← (do
        if ← eat .less then readArguments else return [])
      let name ← typeName production first
      return ⟨name, none, arguments⟩) := by
  funext ts
  unfold readType readArguments
  rw [typeWithin]
  simp only [bind, StateT.bind, Except.bind, eat]
  split
  · next hw => simp only [hw, Except.map]
  next first rest hw =>
  simp only [hw]
  split
  · next hl =>
    have hnone : (pure [] : Reading (List TypeRef)) rest = .ok ([], rest) := rfl
    simp only [hl, Bool.false_eq_true, if_false, hnone]
    split
    · next hn => simp only [hn, Except.map]
    · next hn =>
      simp only [hn, Except.map]
      rfl
  next inner hl =>
  simp only [hl, if_true]
  cases argumentsWithin inner with
  | error failure => rfl
  | ok result =>
    obtain ⟨⟨arguments, mid⟩, hmid⟩ := result
    dsimp only
    split
    · next hn => simp only [Except.map, hn]
    · next hn =>
      simp only [Except.map, hn]
      rfl

/-- Arguments are types with commas between them, up to the closing
bracket. -/
theorem readArguments_eq :
    readArguments = (do
      let argument ← readType .templateArguments
      if ← eat .comma then
        let arguments ← readArguments
        return argument :: arguments
      else
        expect .greater .templateArguments
        return [argument]) := by
  funext ts
  unfold readArguments readType
  rw [argumentsWithin]
  simp only [bind, StateT.bind, Except.bind, eat]
  cases typeWithin .templateArguments ts with
  | error failure => rfl
  | ok result =>
    obtain ⟨⟨argument, rest⟩, hrest⟩ := result
    dsimp only
    conv => rhs; simp only [Except.map]
    split
    · next hc =>
      simp only [hc, Bool.false_eq_true, if_false, StateT.bind, bind,
        Except.bind]
      split
      · next hg => simp only [hg, Except.map]
      · next hg =>
        simp only [hg, Except.map]
        rfl
    next more hc =>
    simp only [hc, if_true, StateT.bind, bind, Except.bind]
    cases argumentsWithin more with
    | error failure => rfl
    | ok result => rfl

end Idl
