import Idl.Token

/-!
# Faults

Parsing stops at the first fault.  A fault says what was wrong, and a message
is made from it in one place.  Running out of tokens where one is needed is
always `endOfInput`, whatever was going to be read.
-/

namespace Idl

/-- What was being read when a token was not the one needed. -/
inductive Production where
  | moduleName
  | typedef
  | constant
  | constantValue
  | structHeader
  | structBases
  | enumHeader
  | interfaceHeader
  | interfaceBases
  | unionHeader
  | unionDiscriminant
  | structMember
  | enumerator
  | method
  | parameter
  | unionCase
  | templateArguments
  | directive
  deriving DecidableEq, Repr

def Production.describe : Production → String
  | moduleName => "a module name"
  | typedef => "a typedef"
  | constant => "a constant"
  | constantValue => "a constant value"
  | structHeader => "a struct header"
  | structBases => "struct inheritance"
  | enumHeader => "an enum header"
  | interfaceHeader => "an interface header"
  | interfaceBases => "interface inheritance"
  | unionHeader => "a union header"
  | unionDiscriminant => "a union discriminant"
  | structMember => "a struct member"
  | enumerator => "an enum member"
  | method => "an interface method"
  | parameter => "a method parameter"
  | unionCase => "a union case"
  | templateArguments => "template parameters"
  | directive => "a preprocessor directive"

/-- What a pair of braces encloses; `global` is outside all braces. -/
inductive ScopeKind where
  | global
  | module
  | struct
  | enum
  | interface
  | union
  deriving DecidableEq, Repr

def ScopeKind.word : ScopeKind → String
  | global => "global"
  | module => "module"
  | struct => "struct"
  | enum => "enum"
  | interface => "interface"
  | union => "union"

/-- What can be wrong with a stream of tokens.  A field `found` is the
offending token as messages show it. -/
inductive Fault where
  | expected (kind : TokenKind) (production : Production) (found : String)
  | unexpectedKeyword (word : String) (scope : ScopeKind)
  | unknownDirective (word : String)
  | invalidDirection (found : String)
  | expectedCase (found : String)
  | expectedSwitch (found : String)
  | invalidInterface (found : String)
  | endOfInput (needed : TokenKind)
  | unmatchedClose
  | unclosedScope (scope : ScopeKind) (name : String)
  deriving DecidableEq, Repr

def Fault.message : Fault → String
  | expected kind production found =>
    "expected " ++ kind.describe ++ ", found " ++ found ++
      " while parsing " ++ production.describe
  | unexpectedKeyword word scope =>
    "unexpected keyword in " ++ scope.word ++ " context: `" ++ word ++ "`"
  | unknownDirective word => "unknown directive `#" ++ word ++ "`"
  | invalidDirection found =>
    "unexpected parameter direction " ++ found ++
      ", expected `in`, `out` or `inout`"
  | expectedCase found =>
    "expected `case` in union member, found " ++ found
  | expectedSwitch found =>
    "expected `switch` after union name, found " ++ found
  | invalidInterface found =>
    "invalid interface definition: found " ++ found ++
      " after the interface name"
  | endOfInput needed =>
    "unexpected end of input, expected " ++ needed.describe
  | unmatchedClose => "unmatched closing brace"
  | unclosedScope scope name =>
    "unclosed " ++ scope.word ++ " `" ++ name ++ "` at end of input"

/-- A fault and the place it is reported at. -/
structure ParseError where
  fault : Fault
  span : Span
  deriving DecidableEq, Repr

def ParseError.message (e : ParseError) : String := e.fault.message

end Idl
