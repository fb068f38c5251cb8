/-!
# Types and declarators

A type is written as a name of one or more words or path segments, with
arguments in angle brackets for a template.  The array size of a declaration
is written behind the declared name but belongs to the type: a declarator is
the declared name together with the size, and binding it to a type moves the
size over.
-/

namespace Idl

structure TypeRef where
  name : String
  quantity : Option String
  arguments : List TypeRef
  deriving Repr, Inhabited

def bracketed : Option String → String
  | none => ""
  | some quantity => "[" ++ quantity ++ "]"

namespace TypeRef

def named (name : String) : TypeRef := ⟨name, none, []⟩

def isTemplate (t : TypeRef) : Bool := !t.arguments.isEmpty

/-- Arguments in angle brackets, or nothing. -/
def argumentList : List String → String
  | [] => ""
  | arguments => "<" ++ String.intercalate ", " arguments ++ ">"

mutual
/-- A type as it is shown: the name, the arguments, the size. -/
def text : TypeRef → String
  | ⟨name, quantity, arguments⟩ =>
    name ++ argumentList (texts arguments) ++ bracketed quantity
def texts : List TypeRef → List String
  | [] => []
  | t :: ts => text t :: texts ts
end

mutual
def decEq : (s t : TypeRef) → Decidable (s = t)
  | ⟨n, q, a⟩, ⟨m, r, b⟩ =>
    if hn : n = m then
      if hq : q = r then
        match decEqList a b with
        | .isTrue h => .isTrue (by rw [hn, hq, h])
        | .isFalse h => .isFalse (by simp [h])
      else .isFalse (by simp [hq])
    else .isFalse (by simp [hn])
def decEqList : (ss ts : List TypeRef) → Decidable (ss = ts)
  | [], [] => .isTrue rfl
  | [], _ :: _ => .isFalse (by simp)
  | _ :: _, [] => .isFalse (by simp)
  | s :: ss, t :: ts =>
    match decEq s t with
    | .isTrue h =>
      match decEqList ss ts with
      | .isTrue hs => .isTrue (by rw [h, hs])
      | .isFalse hs => .isFalse (by simp [hs])
    | .isFalse h => .isFalse (by simp [h])
end

instance : DecidableEq TypeRef := decEq

theorem texts_eq_map (ts : List TypeRef) : texts ts = ts.map text := by
  induction ts with
  | nil => simp [texts]
  | cons t ts ih => simp [texts, ih]

end TypeRef

/-- A declared name with an optional array size. -/
structure Declarator where
  name : String
  quantity : Option String
  deriving DecidableEq, Repr, Inhabited

namespace Declarator

/-- A declarator as it is written: the size stays with the name. -/
def text (d : Declarator) : String := d.name ++ bracketed d.quantity

/-- The type that the declared name gets: a size of the declarator replaces
the one of the type. -/
def bind (d : Declarator) (t : TypeRef) : TypeRef :=
  match d.quantity with
  | none => t
  | some quantity => { t with quantity := some quantity }

end Declarator

end Idl
