import Idl.Assembly
import Idl.Statement.Next
import Idl.Token.Lexing

/-!
# Parsing

A stream of tokens is parsed statement by statement: each is read in the scope
that is open and then applied to the state.  When the tokens are used up no
scope may be open.  A fault is reported at its token, or behind the last token
of the stream if there is none left.
-/

namespace Idl

/-- Reads and applies statements until the stream is used up. -/
def Assembly.run (a : Assembly) : List Token → Except Failure Assembly
  | [] => .ok a
  | t :: ts =>
    match h : readStatement a.scopeKind t ts with
    | .error failure => .error failure
    | .ok (s, rest) =>
      have _shorter : rest.length < (t :: ts).length :=
        Nat.lt_succ_of_le (readStatement_length_le h)
      Assembly.run (a.apply s) rest
termination_by ts => ts.length
decreasing_by exact _shorter

theorem Assembly.run_nil (a : Assembly) : a.run [] = .ok a := by
  rw [run]

theorem Assembly.run_cons (a : Assembly) (t : Token) (ts : List Token) :
    a.run (t :: ts) =
      match readStatement a.scopeKind t ts with
      | .error failure => .error failure
      | .ok (s, rest) => (a.apply s).run rest := by
  rw [run]
  split
  · next h => simp only [h]
  · next h => simp only [h]

def endOffset (ts : List Token) : Nat :=
  (ts.getLast?.map fun t => t.span.stop).getD 0

/-- The report of a failure in a stream that ends at the given offset. -/
def Failure.report (f : Failure) (stop : Nat) : ParseError where
  fault := f.fault
  span := (f.rest.head?.map Token.span).getD (.point stop)

def Scope.unclosed (s : Scope) : ParseError :=
  ⟨.unclosedScope s.target.kind s.name, s.site⟩

def parse (ts : List Token) : Except ParseError ModuleTree :=
  match Assembly.start.run ts with
  | .error failure => .error (failure.report (endOffset ts))
  | .ok a =>
    match a.scopes with
    | [] => .ok a.tree
    | scope :: _ => .error scope.unclosed

inductive SourceError where
  | lexical (e : LexError)
  | grammatical (e : ParseError)
  deriving DecidableEq, Repr

namespace SourceError

def message : SourceError → String
  | lexical e => e.message
  | grammatical e => e.message

def span : SourceError → Span
  | lexical e => e.span
  | grammatical e => e.span

end SourceError

def parseSource (source : String) : Except SourceError ModuleTree :=
  match lex source with
  | .error e => .error (.lexical e)
  | .ok ts =>
    match parse ts with
    | .error e => .error (.grammatical e)
    | .ok tree => .ok tree

end Idl
