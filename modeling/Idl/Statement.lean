import Idl.Declaration
import Idl.Fault

/-!
# Statements

A source is a sequence of statements, and what a statement may be depends only
on the kind of the scope it stands in.  A statement that opens a scope carries
the place of the name, which is where a missing closing brace is reported.
-/

namespace Idl

inductive Statement where
  /-- A directive, which may stand in any scope. -/
  | directive (d : Directive)
  /-- A declaration that is complete. -/
  | declare (d : Declaration)
  | openModule (name : String) (site : Span)
  | openStruct (name : String) (bases : List String) (site : Span)
  | openEnum (name : String) (site : Span)
  | openInterface (name : String) (bases : List String) (site : Span)
  | openUnion (name : String) (discriminant : TypeRef) (site : Span)
  | member (m : Member)
  | enumerator (name : String)
  | method (m : Method)
  | unionCase (c : UnionCase)
  /-- The brace that closes the innermost scope. -/
  | close
  /-- A token without a meaning of its own, such as the semicolon behind a
  closing brace. -/
  | skip
  deriving DecidableEq, Repr

inductive Keyword where
  | module
  | typedef
  | struct
  | const
  | enum
  | interface
  | union
  deriving DecidableEq, Repr

namespace Keyword

def word : Keyword → String
  | module => "module"
  | typedef => "typedef"
  | struct => "struct"
  | const => "const"
  | enum => "enum"
  | interface => "interface"
  | union => "union"

def all : List Keyword :=
  [module, typedef, struct, const, enum, interface, union]

def ofWord? (w : String) : Option Keyword :=
  all.find? fun k => k.word == w

end Keyword

end Idl
