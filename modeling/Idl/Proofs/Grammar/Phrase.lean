import Idl.Reading.Type

/-!
# The grammar: names, types and values

The grammar says which token lists spell which phrases, and it does not look
at the readings.  A phrase is a relation between two token lists: it stands at
the front of the first and leaves the second.  Line ends may follow any token.

A part that may be missing is there whenever the next token allows it, so a
rule that leaves such a part out asks that the next token is another one.
Line ends do not count as the next token.
-/

namespace Idl.Grammar

/-- What stands at the front of a token list, given by the list and by what
is left behind it. -/
abbrev Phrase := List Token → List Token → Prop

def LineEnds (ls : List Token) : Prop := ∀ t ∈ ls, t.kind = .endLine

/-- The first token that is not a line end. -/
def next? (ts : List Token) : Option Token :=
  ts.find? fun t => t.kind != .endLine

def Ahead (kind : TokenKind) (ts : List Token) : Prop :=
  ∃ t, next? ts = some t ∧ t.kind = kind

def AheadWord (word : String) (ts : List Token) : Prop :=
  ∃ t, next? ts = some t ∧ t.isWord word

/-! ## Terminals -/

/-- A token of the given kind and text, and any number of line ends. -/
inductive Terminal (kind : TokenKind) (text : String) : Phrase where
  | intro {t : Token} {ls rest : List Token}
      (hkind : t.kind = kind) (htext : t.text = text) (hls : LineEnds ls) :
      Terminal kind text (t :: (ls ++ rest)) rest

abbrev Word : String → Phrase := Terminal .identifier

abbrev Literal : String → Phrase := Terminal .literal

def Mark (kind : TokenKind) : Phrase := fun a b =>
  ∃ text, Terminal kind text a b

inductive Optional (kind : TokenKind) : Bool → Phrase where
  | taken {a b : List Token} (h : Mark kind a b) : Optional kind true a b
  | absent {a : List Token} (h : ¬ Ahead kind a) : Optional kind false a a

/-! ## Sequences -/

/-- A phrase behind every separator that follows. -/
inductive Followed {α : Type} (separator : TokenKind) (item : α → Phrase) :
    List α → Phrase where
  | nil {a : List Token} (hnext : ¬ Ahead separator a) :
      Followed separator item [] a a
  | cons {x : α} {xs : List α} {a b c d : List Token}
      (hmark : Mark separator a b) (hitem : item x b c)
      (hmore : Followed separator item xs c d) :
      Followed separator item (x :: xs) a d

inductive Separated {α : Type} (separator : TokenKind) (item : α → Phrase) :
    List α → Phrase where
  | intro {x : α} {xs : List α} {a b c : List Token} (hitem : item x a b)
      (hmore : Followed separator item xs b c) :
      Separated separator item (x :: xs) a c

/-! ## Names -/

abbrev Segments : List String → Phrase := Followed .namespaces Word

inductive Size : Option String → Phrase where
  | absent {a : List Token} (hnext : ¬ Ahead .openSquare a) : Size none a a
  | given {n : String} {a b c d : List Token}
      (hopen : Mark .openSquare a b) (hword : Word n b c)
      (hclose : Mark .closeSquare c d) : Size (some n) a d

inductive Declared : Declarator → Phrase where
  | intro {first : String} {ss : List String} {n : Option String}
      {a b c d : List Token}
      (hfirst : Word first a b) (hmore : Segments ss b c)
      (hsize : Size n c d) : Declared ⟨qualified first ss, n⟩ a d

inductive DeclaredText : String → Phrase where
  | intro {d : Declarator} {a b : List Token} (hname : Declared d a b) :
      DeclaredText d.text a b

/-! ## Types -/

/-- The word `unsigned` takes one more word. -/
inductive Signed : String → String → Phrase where
  | plain {first : String} {a : List Token} (hfirst : first ≠ "unsigned") :
      Signed first first a a
  | unsigned {w : String} {a b : List Token} (hword : Word w a b) :
      Signed "unsigned" ("unsigned " ++ w) a b

def IsLong (name : String) : Prop := name = "long" ∨ name = "unsigned long"

/-- Behind `long` and `unsigned long` a second `long` belongs to the name. -/
inductive Lengthened : String → String → Phrase where
  | short {name : String} {a : List Token}
      (hnext : IsLong name → ¬ AheadWord "long" a) : Lengthened name name a a
  | long {name : String} {a b : List Token} (hname : IsLong name)
      (hword : Word "long" a b) : Lengthened name (name ++ " long") a b

/-- The words and segments behind the first word of a type, which complete it
to a name. -/
inductive TypeName (first : String) : String → Phrase where
  | intro {signed base : String} {ss : List String} {a b c d : List Token}
      (hsigned : Signed first signed a b)
      (hbase : Lengthened signed base b c) (hmore : Segments ss c d) :
      TypeName first (qualified base ss) a d

mutual
/-- A type: its first word, its arguments, and the rest of its name. -/
inductive Typed : TypeRef → Phrase where
  | plain {first name : String} {a b c : List Token}
      (hfirst : Word first a b) (hnext : ¬ Ahead .less b)
      (hname : TypeName first name b c) : Typed ⟨name, none, []⟩ a c
  | template {first name : String} {ts : List TypeRef}
      {a b c d e : List Token}
      (hfirst : Word first a b) (hopen : Mark .less b c)
      (hargs : Arguments ts c d) (hname : TypeName first name d e) :
      Typed ⟨name, none, ts⟩ a e
inductive Arguments : List TypeRef → Phrase where
  | last {t : TypeRef} {a b c : List Token}
      (htype : Typed t a b) (hclose : Mark .greater b c) : Arguments [t] a c
  | more {t : TypeRef} {ts : List TypeRef} {a b c d : List Token}
      (htype : Typed t a b) (hcomma : Mark .comma b c)
      (hmore : Arguments ts c d) : Arguments (t :: ts) a d
end

/-! ## Values of constants -/

/-- A run of words, literals and opening angle brackets, as long as it can
be, and the text that they make together. -/
inductive ValueRun : String → Phrase where
  | nil {a : List Token} (hword : ¬ Ahead .identifier a)
      (hliteral : ¬ Ahead .literal a) (hless : ¬ Ahead .less a) :
      ValueRun "" a a
  | word {s v : String} {a b c : List Token}
      (hword : Word s a b) (hmore : ValueRun v b c) : ValueRun (s ++ v) a c
  | literal {s v : String} {a b c : List Token}
      (hliteral : Literal s a b) (hmore : ValueRun v b c) :
      ValueRun (s ++ v) a c
  | less {v : String} {a b c : List Token}
      (hless : Mark .less a b) (hmore : ValueRun v b c) :
      ValueRun ("<" ++ v) a c

/-- The value of a constant; one that starts with a literal is quoted. -/
inductive Value : String → Phrase where
  | word {s v : String} {a b c : List Token}
      (hword : Word s a b) (hmore : ValueRun v b c) : Value (s ++ v) a c
  | literal {s v : String} {a b c : List Token}
      (hliteral : Literal s a b) (hmore : ValueRun v b c) :
      Value ("\"" ++ (s ++ v) ++ "\"") a c

end Idl.Grammar
