import Idl.Proofs.Grammar.Phrase
import Idl.Module.Tree
import Idl.Token.Piece

/-!
# Well-shaped trees

Texts of any kind can stand in a tree, but a source has words for names.  A
tree is well-shaped if each of its texts has the form that its place in a
source asks for, and if its modules are numbered in the order in which their
headings would be read.
-/

namespace Idl

/-! ## Names -/

structure IsIdent (w : String) : Prop where
  ne_empty : w ≠ ""
  wordChar : ∀ c ∈ w.toList, isWordChar c = true

instance : DecidablePred IsIdent := fun w =>
  decidable_of_iff (w ≠ "" ∧ w.toList.all isWordChar = true)
    ⟨fun h => ⟨h.1, List.all_eq_true.mp h.2⟩,
      fun h => ⟨h.ne_empty, List.all_eq_true.mpr h.wordChar⟩⟩

/-- Identifiers with namespace marks between them. -/
def IsPath (name : String) : Prop :=
  ∃ first segments, IsIdent first ∧ (∀ s ∈ segments, IsIdent s) ∧
    name = qualified first segments

/-- A path, possibly with an identifier in square brackets. -/
inductive IsHeading : String → Prop where
  | intro {d : Declarator} (hname : IsPath d.name)
      (hsize : ∀ n ∈ d.quantity, IsIdent n) : IsHeading d.text

/-- The words of a type name in front of its namespace marks. -/
inductive IsTypeBase : String → Prop where
  | word {w : String} (hw : IsIdent w) (hunsigned : w ≠ "unsigned") :
      IsTypeBase w
  | unsigned {w : String} (hw : IsIdent w) : IsTypeBase ("unsigned " ++ w)
  | longLong : IsTypeBase "long long"
  | unsignedLongLong : IsTypeBase "unsigned long long"

def IsTypeName (name : String) : Prop :=
  ∃ base segments, IsTypeBase base ∧ (∀ s ∈ segments, IsIdent s) ∧
    name = qualified base segments

namespace IsIdent

variable {w : String}

theorem isPath (hw : IsIdent w) : IsPath w :=
  ⟨w, [], hw, List.forall_mem_nil _, rfl⟩

theorem isHeading (hw : IsIdent w) : IsHeading w := by
  have hbare : IsHeading (Declarator.text ⟨w, none⟩) :=
    .intro hw.isPath fun n hn => (Option.not_mem_none n hn).elim
  rwa [Declarator.text, bracketed, String.append_empty] at hbare

theorem isTypeName (hw : IsIdent w) (hunsigned : w ≠ "unsigned") :
    IsTypeName w :=
  ⟨w, [], .word hw hunsigned, List.forall_mem_nil _, rfl⟩

end IsIdent

def firstSegment (name : String) : String :=
  String.ofList (name.toList.takeWhile isWordChar)

/-- The name does not complete the type in front of it. -/
def Separate (type : TypeRef) (name : String) : Prop :=
  Grammar.IsLong type.name → firstSegment name ≠ "long"

/-! ## Types and values -/

/-- A type without a size. -/
inductive IsPlain : TypeRef → Prop where
  | intro {name : String} {arguments : List TypeRef} (hname : IsTypeName name)
      (harguments : ∀ t ∈ arguments, IsPlain t) :
      IsPlain ⟨name, none, arguments⟩

/-- A type and the name that is declared with it, which carries the size. -/
structure Declares (type : TypeRef) (name : String) : Prop where
  plain : IsPlain { type with quantity := none }
  size : ∀ n ∈ type.quantity, IsIdent n
  path : IsPath name
  separate : Separate type name

inductive IsValue : String → Prop where
  | quoted {v : String} {body : List Char}
      (htext : v.toList = '"' :: (body ++ ['"'])) (hbody : '"' ∉ body) :
      IsValue v
  | plain {v : String} {c : Char} {cs : List Char} (htext : v.toList = c :: cs)
      (hc : isWordChar c = true) (hcs : '"' ∉ cs) : IsValue v

/-! ## Declarations and directives -/

inductive Parameter.WellShaped : Parameter → Prop where
  | named {direction : Direction} {type : TypeRef} {name : String}
      (hdeclares : Declares type name) :
      WellShaped ⟨direction, type, some name⟩
  | unnamed {direction : Direction} {type : TypeRef} (htype : IsPlain type) :
      WellShaped ⟨direction, type, none⟩

structure Method.WellShaped (m : Method) : Prop where
  result : IsPlain m.result
  name : IsHeading m.name
  separate : Separate m.result m.name
  parameters : ∀ p ∈ m.parameters, p.WellShaped

structure UnionCase.WellShaped (c : UnionCase) : Prop where
  selector : IsPlain c.selector
  member : Declares c.type c.name

inductive Declaration.WellShaped : Declaration → Prop where
  | interface {d : InterfaceDecl} (hname : IsHeading d.name)
      (hbases : ∀ b ∈ d.bases, IsHeading b)
      (hmethods : ∀ m ∈ d.methods, m.WellShaped) : WellShaped (.interface d)
  | typedef {d : Member} (hdeclares : Declares d.type d.name) :
      WellShaped (.typedef d)
  | struct {d : StructDecl} (hname : IsHeading d.name)
      (hbases : ∀ b ∈ d.bases, IsHeading b)
      (hmembers : ∀ m ∈ d.members, Declares m.type m.name) :
      WellShaped (.struct d)
  | constant {d : Constant} (hdeclares : Declares d.type d.name)
      (hvalue : IsValue d.value) : WellShaped (.constant d)
  | enum {d : EnumDecl} (hname : IsHeading d.name)
      (henumerators : ∀ e ∈ d.enumerators, IsIdent e) : WellShaped (.enum d)
  | union {d : UnionDecl} (hname : IsHeading d.name)
      (hdiscriminant : IsPlain d.discriminant)
      (hcases : ∀ c ∈ d.cases, c.WellShaped) : WellShaped (.union d)

inductive Directive.WellShaped : Directive → Prop where
  | define {name : String} {value : Option String} (hname : IsIdent name)
      (hvalue : ∀ v ∈ value, IsIdent v) : WellShaped (.define name value)
  | include {path : String} (hpath : '"' ∉ path.toList) :
      WellShaped (.include path)

/-! ## Modules -/

namespace ModuleDecl

def declarations (m : ModuleDecl) : List Declaration :=
  m.interfaces.map .interface ++ (m.typedefs.map .typedef ++
    (m.structs.map .struct ++ (m.constants.map .constant ++
      (m.enums.map .enum ++ m.unions.map .union))))

end ModuleDecl

namespace ModuleTree

/-- The modules listed below a parent, each followed by those nested in it,
take the places from the first up to the last number. -/
inductive Numbered (t : ModuleTree) : Nat → Nat → List Nat → Nat → Prop where
  | nil {parent first : Nat} : Numbered t parent first [] first
  | cons {parent first mid last : Nat} {children : List Nat}
      (hparent : t.parent? first = some parent)
      (hinner : Numbered t first (first + 1) (t.children first) mid)
      (hmore : Numbered t parent mid children last) :
      Numbered t parent first (first :: children) last

structure WellShaped (t : ModuleTree) : Prop where
  rootName : (t.get root).name = ""
  rootParent : t.parent? root = none
  numbered : Numbered t root (root + 1) (t.children root) t.count
  names : ∀ id, root < id → id < t.count → IsHeading (t.get id).name
  declarations : ∀ id, id < t.count →
    ∀ d ∈ (t.get id).declarations, d.WellShaped
  directives : ∀ d ∈ t.directives, d.WellShaped

end ModuleTree

end Idl
