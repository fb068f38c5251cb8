import Idl.Module.Path
import Idl.Text.Padding
import Idl.Text.Quoted

/-!
# Listing of a module tree

A listing is a list of lines, each with a depth that says how far it is
indented.  A module is listed as a headline, then its declarations one step
deeper, sort by sort, and then the nested modules, also one step deeper.  A
sort that has no declarations has no headline.

Lines are written one by one, and a line that is nested too deep to be indented
ends the writing.
-/

namespace Idl

structure ListingLine where
  depth : Nat
  text : String
  deriving DecidableEq, Repr

namespace ListingLine

/-- A line is indented by two spaces for each step of depth. -/
def render (l : ListingLine) : String :=
  Text.blanks (2 * l.depth) ++ l.text ++ "\n"

def renderAll (ls : List ListingLine) : String :=
  String.join (ls.map render)

def fits (l : ListingLine) : Bool := Text.fits (2 * l.depth)

end ListingLine

/-- What came of writing a listing: the text, and whether it is all of it. -/
structure Output where
  text : String
  whole : Bool
  deriving DecidableEq, Repr

/-- Writes the lines up to the first that cannot be indented. -/
def ListingLine.writeAll (ls : List ListingLine) : Output :=
  ⟨renderAll (ls.takeWhile fits), ls.all fits⟩

/-! ## Declarations -/

def baseList : List String → String
  | [] => ""
  | bases => " (: " ++ String.intercalate ", " bases ++ ")"

def typedName (name : String) (type : TypeRef) : String :=
  name ++ " (" ++ type.text ++ ")"

def Method.listing (m : Method) : String :=
  m.result.text ++ " " ++ m.name ++
    "(" ++ String.intercalate ", " (m.parameters.map Parameter.text) ++ ")"

def Constant.listing (c : Constant) : String :=
  typedName c.name c.type ++ " = " ++ c.value

def UnionCase.listing (c : UnionCase) : String :=
  "case " ++ c.selector.text ++ ": " ++ typedName c.name c.type

def InterfaceDecl.listing (depth : Nat) (d : InterfaceDecl) :
    List ListingLine :=
  ⟨depth, d.name ++ baseList d.bases⟩ ::
    d.methods.map fun m => ⟨depth + 1, m.listing⟩

def EnumDecl.listing (depth : Nat) (d : EnumDecl) : List ListingLine :=
  ⟨depth, d.name⟩ ::
    d.ordinals.map fun e => ⟨depth + 1, e.1 ++ " = " ++ e.2.repr⟩

def StructDecl.listing (depth : Nat) (d : StructDecl) : List ListingLine :=
  ⟨depth, d.name ++ baseList d.bases⟩ ::
    d.members.map fun m => ⟨depth + 1, typedName m.name m.type⟩

def UnionDecl.listing (depth : Nat) (d : UnionDecl) : List ListingLine :=
  ⟨depth, d.name ++ " switch (" ++ d.discriminant.text ++ ")"⟩ ::
    d.cases.map fun c => ⟨depth + 1, c.listing⟩

/-- The declarations of one sort under their headline; the headline is left
out when there are none. -/
def sortListing {α : Type} (depth : Nat) (title : String)
    (entry : α → List ListingLine) : List α → List ListingLine
  | [] => []
  | ds => ⟨depth, title ++ ":"⟩ :: ds.flatMap entry

def ModuleDecl.listing (depth : Nat) (m : ModuleDecl) : List ListingLine :=
  sortListing depth "Interfaces" (InterfaceDecl.listing (depth + 1)) m.interfaces ++
  sortListing depth "Constants" (fun c => [⟨depth + 1, c.listing⟩]) m.constants ++
  sortListing depth "TypeDefs"
    (fun d => [⟨depth + 1, typedName d.name d.type⟩]) m.typedefs ++
  sortListing depth "Enums" (EnumDecl.listing (depth + 1)) m.enums ++
  sortListing depth "Structs" (StructDecl.listing (depth + 1)) m.structs ++
  sortListing depth "Unions" (UnionDecl.listing (depth + 1)) m.unions

/-! ## Directives -/

def Directive.listing : Directive → String
  | .define name none =>
    "Define \x7b name: " ++ Text.quoted name ++ ", value: None \x7d"
  | .define name (some value) =>
    "Define \x7b name: " ++ Text.quoted name ++
      ", value: Some(" ++ Text.quoted value ++ ") \x7d"
  | .include path => "Include \x7b path: " ++ Text.quoted path ++ " \x7d"

/-! ## Modules -/

namespace ModuleTree

def headline (t : ModuleTree) (id : Nat) : String :=
  match t.parent? id with
  | none => "Module: (root)"
  | some _ => "Module: " ++ t.path id

/-- A module with everything nested in it.  Children stand behind their
parents, so the descent ends. -/
def moduleListing (t : ModuleTree) (id : Nat) (depth : Nat) :
    List ListingLine :=
  ⟨depth, t.headline id⟩ ::
    ((t.get id).listing (depth + 1) ++
      (t.children id).flatMap fun child =>
        if id < child ∧ child < t.count then
          moduleListing t child (depth + 1)
        else
          [])
termination_by t.count - id
decreasing_by omega

/-- The whole tree: the directives, then the root with all its modules. -/
def listing (t : ModuleTree) : List ListingLine :=
  t.directives.map (fun d => ⟨0, "Directive: " ++ d.listing⟩) ++
    t.moduleListing root 0

end ModuleTree

end Idl
