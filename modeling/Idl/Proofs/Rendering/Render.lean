import Idl.Proofs.Rendering.Shape

/-!
# Rendering a tree as a source

A tree is written with all directives first, each on a line of its own, and in
every module the declarations sort by sort and then the nested modules.  Names
are written as they are.  Everything is written in front of the text that
follows it.
-/

namespace Idl

/-- A text in front of another. -/
def put (s : String) (rest : List Char) : List Char := s.toList ++ rest

def writeSeparated {α : Type} (write : α → List Char → List Char) :
    List α → List Char → List Char
  | [], rest => rest
  | [x], rest => write x rest
  | x :: xs, rest => write x (',' :: ' ' :: writeSeparated write xs rest)

/-- Entries in braces, each on a line of its own, and a semicolon. -/
def writeBraced {α : Type} (write : α → List Char → List Char)
    (xs : List α) (rest : List Char) : List Char :=
  '\x7b' :: '\n' ::
    xs.foldr (fun x rest => write x ('\n' :: rest)) ('\x7d' :: ';' :: rest)

/-! ## Types and values -/

mutual
/-- The arguments of a type stand behind the first word of its name. -/
def TypeRef.write : TypeRef → List Char → List Char
  | ⟨name, _, arguments⟩, rest =>
    name.toList.takeWhile isWordChar ++
      writeBracketed arguments (name.toList.dropWhile isWordChar ++ rest)
def TypeRef.writeBracketed : List TypeRef → List Char → List Char
  | [], rest => rest
  | t :: ts, rest => '<' :: t.write (writeMore ts rest)
def TypeRef.writeMore : List TypeRef → List Char → List Char
  | [], rest => '>' :: rest
  | t :: ts, rest => ',' :: ' ' :: t.write (writeMore ts rest)
end

def writeDeclared (name : String) (type : TypeRef) (rest : List Char) :
    List Char :=
  put (Declarator.text ⟨name, type.quantity⟩) rest

/-- A value in quotes is written as it is; of any other the first word stands
in front and what follows it in quotes. -/
def writeValue (value : String) (rest : List Char) : List Char :=
  if value.toList.head? = some '"' then
    put value rest
  else
    value.toList.takeWhile isWordChar ++
      match value.toList.dropWhile isWordChar with
      | [] => rest
      | text => ' ' :: '"' :: (text ++ '"' :: rest)

/-! ## Entries -/

def Member.write (m : Member) (rest : List Char) : List Char :=
  m.type.write (' ' :: writeDeclared m.name m.type (';' :: rest))

def writeEnumerator (name : String) (rest : List Char) : List Char :=
  put name (',' :: rest)

def Parameter.write (p : Parameter) (rest : List Char) : List Char :=
  put p.direction.word (' ' :: p.type.write
    (match p.name with
      | none => rest
      | some name => ' ' :: writeDeclared name p.type rest))

def Method.write (m : Method) (rest : List Char) : List Char :=
  m.result.write (' ' :: put m.name ('(' ::
    writeSeparated Parameter.write m.parameters (')' :: ';' :: rest)))

def UnionCase.write (c : UnionCase) (rest : List Char) : List Char :=
  put "case" (' ' :: '(' :: c.selector.write (')' :: ':' :: ' ' ::
    Member.write ⟨c.name, c.type⟩ rest))

/-! ## Declarations -/

def writeBases (bases : List String) (rest : List Char) : List Char :=
  match bases with
  | [] => rest
  | bases => ':' :: ' ' :: writeSeparated put bases (' ' :: rest)

def Declaration.write (d : Declaration) (rest : List Char) : List Char :=
  match d with
  | .interface d =>
    put "interface" (' ' :: put d.name (' ' :: writeBases d.bases
      (writeBraced Method.write d.methods rest)))
  | .typedef d => put "typedef" (' ' :: d.write rest)
  | .struct d =>
    put "struct" (' ' :: put d.name (' ' :: writeBases d.bases
      (writeBraced Member.write d.members rest)))
  | .constant d =>
    put "const" (' ' :: d.type.write (' ' :: writeDeclared d.name d.type
      (' ' :: '=' :: ' ' :: writeValue d.value (';' :: rest))))
  | .enum d =>
    put "enum" (' ' :: put d.name (' ' ::
      writeBraced writeEnumerator d.enumerators rest))
  | .union d =>
    put "union" (' ' :: put d.name (' ' :: put "switch" (' ' :: '(' ::
      d.discriminant.write (')' :: ' ' ::
        writeBraced UnionCase.write d.cases rest))))

def writeDeclarations (ds : List Declaration) (rest : List Char) :
    List Char :=
  ds.foldr (fun d rest => d.write ('\n' :: rest)) rest

/-! ## Directives and modules -/

def Directive.write (d : Directive) (rest : List Char) : List Char :=
  match d with
  | .define name none =>
    '#' :: put "define" (' ' :: put name rest)
  | .define name (some value) =>
    '#' :: put "define" (' ' :: put name (' ' :: put value rest))
  | .include path =>
    '#' :: put "include" (' ' :: '"' :: put path ('"' :: rest))

namespace ModuleTree

/-- What stands in a module: its declarations and the modules nested in it. -/
def writeModule (t : ModuleTree) (id : Nat) (rest : List Char) : List Char :=
  writeDeclarations (t.get id).declarations
    ((t.children id).foldr (fun child rest =>
      if id < child ∧ child < t.count then
        put "module" (' ' :: put (t.get child).name (' ' :: '\x7b' :: '\n' ::
          t.writeModule child ('\x7d' :: ';' :: '\n' :: rest)))
      else
        rest) rest)
termination_by t.count - id
decreasing_by omega

/-- The source of a tree. -/
def render (t : ModuleTree) : String :=
  String.ofList (t.directives.foldr (fun d rest => d.write ('\n' :: rest))
    (t.writeModule root []))

end ModuleTree

end Idl
