import Idl.Type

/-!
# Declarations

What a module may declare.  Bases and types are kept as they are written;
nothing is resolved.  Enumerators have no values of their own: the ordinal of
an enumerator is its position.
-/

namespace Idl

/-- A name with a type: a field of a structure, or a type definition. -/
structure Member where
  name : String
  type : TypeRef
  deriving DecidableEq, Repr, Inhabited

/-- A constant keeps its value as it is written, quotes included. -/
structure Constant where
  name : String
  type : TypeRef
  value : String
  deriving DecidableEq, Repr, Inhabited

structure StructDecl where
  name : String
  bases : List String
  members : List Member
  deriving DecidableEq, Repr, Inhabited

structure EnumDecl where
  name : String
  enumerators : List String
  deriving DecidableEq, Repr, Inhabited

namespace EnumDecl

/-- The enumerators with their ordinals, in order. -/
def ordinals (e : EnumDecl) : List (String × Nat) := e.enumerators.zipIdx

def ordinalOf? (e : EnumDecl) (name : String) : Option Nat :=
  e.enumerators.findIdx? (· == name)

end EnumDecl

inductive Direction where
  | input
  | output
  | both
  deriving DecidableEq, Repr, Inhabited

namespace Direction

def word : Direction → String
  | input => "in"
  | output => "out"
  | both => "inout"

def ofWord? (w : String) : Option Direction :=
  [input, output, both].find? fun d => d.word == w

end Direction

structure Parameter where
  direction : Direction
  type : TypeRef
  name : Option String
  deriving DecidableEq, Repr, Inhabited

/-- A parameter as it is shown: direction, type, and the name if it has
one. -/
def Parameter.text (p : Parameter) : String :=
  p.direction.word ++ " " ++ p.type.text ++
    match p.name with
    | none => ""
    | some name => " " ++ name

structure Method where
  name : String
  result : TypeRef
  parameters : List Parameter
  deriving DecidableEq, Repr, Inhabited

structure InterfaceDecl where
  name : String
  bases : List String
  methods : List Method
  deriving DecidableEq, Repr, Inhabited

/-- A case of a union; the selecting value is read like a type. -/
structure UnionCase where
  selector : TypeRef
  type : TypeRef
  name : String
  deriving DecidableEq, Repr, Inhabited

structure UnionDecl where
  name : String
  discriminant : TypeRef
  cases : List UnionCase
  deriving DecidableEq, Repr, Inhabited

inductive Declaration where
  | interface (d : InterfaceDecl)
  | typedef (d : Member)
  | struct (d : StructDecl)
  | constant (d : Constant)
  | enum (d : EnumDecl)
  | union (d : UnionDecl)
  deriving DecidableEq, Repr

/-- A preprocessor directive is recorded and not carried out. -/
inductive Directive where
  | define (name : String) (value : Option String)
  | include (path : String)
  deriving DecidableEq, Repr

end Idl
