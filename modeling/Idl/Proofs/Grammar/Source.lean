import Idl.Proofs.Grammar.Phrase
import Idl.Assembly

/-!
# The grammar: declarations and sources

A source is a list of items, and the body of a module is one again, so the
grammar is nested where the assembly keeps a stack.  Directives may stand
between the entries of any body.  A token that can start nothing is ignored
wherever an item or an entry could stand.

The value of a source is its module tree.  `placeItems` says how items make a
tree: every declaration is appended to the module around it, and a module is
numbered when it is opened.
-/

namespace Idl.Grammar

/-! ## Directives -/

/-- A directive.  The value of a definition follows its name at once, without
a line end between. -/
inductive Directed : Directive → Phrase where
  | define {n : Token} {a b rest : List Token}
      (hhash : Mark .hash a b) (hword : Word "define" b (n :: rest))
      (hname : n.kind = .identifier)
      (hnone : ∀ v ∈ rest.head?, v.kind ≠ .identifier) :
      Directed (.define n.text none) a rest
  | defineValue {n v : Token} {a b rest : List Token}
      (hhash : Mark .hash a b) (hword : Word "define" b (n :: v :: rest))
      (hname : n.kind = .identifier) (hvalue : v.kind = .identifier) :
      Directed (.define n.text (some v.text)) a rest
  | include {path : String} {a b c d : List Token}
      (hhash : Mark .hash a b) (hword : Word "include" b c)
      (hpath : Literal path c d) : Directed (.include path) a d

/-! ## Bodies -/

/-- A token that can start neither an entry nor a directive, and does not
close a body. -/
def Ignored (t : Token) : Prop :=
  t.kind ≠ .hash ∧ t.kind ≠ .identifier ∧ t.kind ≠ .closeBrace

/-- Entries and directives in any order, with ignored tokens among them. -/
inductive Entries {α : Type} (entry : α → Phrase) :
    List α → List Directive → Phrase where
  | nil {a : List Token} : Entries entry [] [] a a
  | ignored {xs : List α} {ds : List Directive} {t : Token}
      {a b : List Token} (hignored : Ignored t)
      (hmore : Entries entry xs ds a b) : Entries entry xs ds (t :: a) b
  | directive {xs : List α} {d : Directive} {ds : List Directive}
      {a b c : List Token} (hdirective : Directed d a b)
      (hmore : Entries entry xs ds b c) : Entries entry xs (d :: ds) a c
  | entry {x : α} {xs : List α} {ds : List Directive} {a b c : List Token}
      (hentry : entry x a b) (hmore : Entries entry xs ds b c) :
      Entries entry (x :: xs) ds a c

inductive Braced {α : Type} (entry : α → Phrase) :
    List α → List Directive → Phrase where
  | intro {xs : List α} {ds : List Directive} {a b c d : List Token}
      (hopen : Mark .openBrace a b) (hbody : Entries entry xs ds b c)
      (hclose : Mark .closeBrace c d) : Braced entry xs ds a d

/-! ## Entries -/

/-- A type, a declared name and a semicolon; the size goes to the type. -/
inductive Field : Member → Phrase where
  | intro {t : TypeRef} {d : Declarator} {a b c e : List Token}
      (htype : Typed t a b) (hname : Declared d b c)
      (hend : Mark .semicolon c e) : Field ⟨d.name, d.bind t⟩ a e

inductive Commas : Phrase where
  | nil {a : List Token} (hnext : ¬ Ahead .comma a) : Commas a a
  | cons {a b c : List Token} (hcomma : Mark .comma a b)
      (hmore : Commas b c) : Commas a c

inductive Enumerator : String → Phrase where
  | intro {name : String} {a b c : List Token}
      (hname : Word name a b) (hcommas : Commas b c) : Enumerator name a c

inductive Passed : Parameter → Phrase where
  | named {direction : Direction} {t : TypeRef} {d : Declarator}
      {a b c e : List Token}
      (hdirection : Word direction.word a b) (htype : Typed t b c)
      (hname : Declared d c e) :
      Passed ⟨direction, d.bind t, some d.name⟩ a e
  | unnamed {direction : Direction} {t : TypeRef} {a b c : List Token}
      (hdirection : Word direction.word a b) (htype : Typed t b c)
      (hnext : ¬ Ahead .identifier c) : Passed ⟨direction, t, none⟩ a c

/-- What stands behind the opening bracket of a method.  Without parameters
the semicolon must stand there, behind parameters it may. -/
inductive Signature : List Parameter → Phrase where
  | empty {a b c : List Token} (hclose : Mark .closeRound a b)
      (hend : Mark .semicolon b c) : Signature [] a c
  | parameters {ps : List Parameter} {ended : Bool} {a b c d : List Token}
      (hps : Separated .comma Passed ps a b) (hclose : Mark .closeRound b c)
      (hend : Optional .semicolon ended c d) : Signature ps a d

inductive Called : Method → Phrase where
  | intro {t : TypeRef} {name : String} {ps : List Parameter}
      {a b c d e : List Token}
      (hresult : Typed t a b) (hname : DeclaredText name b c)
      (hopen : Mark .openRound c d) (hps : Signature ps d e) :
      Called ⟨name, t, ps⟩ a e

inductive Selected : UnionCase → Phrase where
  | intro {t : TypeRef} {m : Member} {a b c d e f g : List Token}
      (hword : Word "case" a b) (hopen : Mark .openRound b c)
      (hselector : Typed t c d) (hclose : Mark .closeRound d e)
      (hcolon : Mark .colon e f) (hfield : Field m f g) :
      Selected ⟨t, m.type, m.name⟩ a g

/-! ## Declarations -/

inductive Bases : List String → Phrase where
  | absent {a : List Token} (hnext : ¬ Ahead .colon a) : Bases [] a a
  | given {bases : List String} {a b c : List Token}
      (hcolon : Mark .colon a b)
      (hbases : Separated .comma DeclaredText bases b c) :
      Bases bases a c

inductive DeclaredItem : Declaration → List Directive → Phrase where
  | typedef {m : Member} {a b c : List Token}
      (hword : Word "typedef" a b) (hfield : Field m b c) :
      DeclaredItem (.typedef m) [] a c
  | constant {t : TypeRef} {d : Declarator} {v : String}
      {a b c e f g h : List Token}
      (hword : Word "const" a b) (htype : Typed t b c)
      (hname : Declared d c e) (hequals : Mark .equals e f)
      (hvalue : Value v f g) (hend : Mark .semicolon g h) :
      DeclaredItem (.constant ⟨d.name, d.bind t, v⟩) [] a h
  | struct {name : String} {bases : List String} {ms : List Member}
      {ds : List Directive} {a b c d e : List Token}
      (hword : Word "struct" a b) (hname : DeclaredText name b c)
      (hbases : Bases bases c d) (hbody : Braced Field ms ds d e) :
      DeclaredItem (.struct ⟨name, bases, ms⟩) ds a e
  | enum {name : String} {names : List String} {ds : List Directive}
      {a b c d : List Token}
      (hword : Word "enum" a b) (hname : DeclaredText name b c)
      (hbody : Braced Enumerator names ds c d) :
      DeclaredItem (.enum ⟨name, names⟩) ds a d
  | forward {name : String} {a b c d : List Token}
      (hword : Word "interface" a b) (hname : DeclaredText name b c)
      (hend : Mark .semicolon c d) :
      DeclaredItem (.interface ⟨name, [], []⟩) [] a d
  | interface {name : String} {bases : List String} {ms : List Method}
      {ds : List Directive} {a b c d e : List Token}
      (hword : Word "interface" a b) (hname : DeclaredText name b c)
      (hbases : Bases bases c d) (hbody : Braced Called ms ds d e) :
      DeclaredItem (.interface ⟨name, bases, ms⟩) ds a e
  | union {name : String} {t : TypeRef} {cs : List UnionCase}
      {ds : List Directive} {a b c d e f g h : List Token}
      (hword : Word "union" a b) (hname : DeclaredText name b c)
      (hswitch : Word "switch" c d) (hopen : Mark .openRound d e)
      (htype : Typed t e f) (hclose : Mark .closeRound f g)
      (hbody : Braced Selected cs ds g h) :
      DeclaredItem (.union ⟨name, t, cs⟩) ds a h

/-! ## Items -/

/-- What a source or the body of a module consists of. -/
inductive Item where
  | directive (d : Directive)
  /-- A declaration, and the directives that stand in its body. -/
  | declaration (d : Declaration) (inner : List Directive)
  | module (name : String) (body : List Item)

inductive Items : List Item → Phrase where
  | nil {a : List Token} : Items [] a a
  | ignored {is : List Item} {t : Token} {a b : List Token}
      (hignored : Ignored t) (hmore : Items is a b) : Items is (t :: a) b
  | directive {d : Directive} {is : List Item} {a b c : List Token}
      (hdirective : Directed d a b) (hmore : Items is b c) :
      Items (.directive d :: is) a c
  | declaration {d : Declaration} {ds : List Directive} {is : List Item}
      {a b c : List Token}
      (hdeclaration : DeclaredItem d ds a b) (hmore : Items is b c) :
      Items (.declaration d ds :: is) a c
  | module {name : String} {body is : List Item}
      {a b c d e f g : List Token}
      (hword : Word "module" a b) (hname : DeclaredText name b c)
      (hopen : Mark .openBrace c d) (hbody : Items body d e)
      (hclose : Mark .closeBrace e f) (hmore : Items is f g) :
      Items (.module name body :: is) a g

/-! ## The tree of a source -/

mutual
/-- Places an item into the module with the given number. -/
def placeItem (id : Nat) (t : ModuleTree) : Item → ModuleTree
  | .directive d => t.addDirective d
  | .declaration d inner =>
      inner.foldl ModuleTree.addDirective (t.declare id d)
  | .module name body => placeItems t.count (t.addChild id name) body
def placeItems (id : Nat) (t : ModuleTree) : List Item → ModuleTree
  | [] => t
  | i :: is => placeItems id (placeItem id t i) is
end

/-- The token list is a source, and this is its module tree. -/
def Source (ts : List Token) (tree : ModuleTree) : Prop :=
  ∃ items, Items items ts [] ∧ tree = placeItems ModuleTree.root .empty items

end Idl.Grammar
