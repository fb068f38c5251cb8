import Idl.Main
import Idl.Module.Walk
import Idl.Proofs.Grammar.Phrase
import Idl.Proofs.Grammar.Source
import Idl.Proofs.Grammar.Reads
import Idl.Proofs.Grammar.Types
import Idl.Proofs.Grammar.Values
import Idl.Proofs.Grammar.Declarations
import Idl.Proofs.Grammar.Members
import Idl.Proofs.Grammar.Next
import Idl.Proofs.Grammar.Bodies
import Idl.Proofs.Grammar.Acceptance
import Idl.Proofs.Assembly.Scopes
import Idl.Proofs.Assembly.Guarded
import Idl.Proofs.Reading.Composed
import Idl.Proofs.Reading.Local
import Idl.Proofs.Reading.Completion
import Idl.Proofs.Reading.Productions
import Idl.Proofs.Reading.Lockstep
import Idl.Proofs.Statement.Lockstep
import Idl.Proofs.Assembly.Prefix
import Idl.Proofs.Assembly.Concatenation
import Idl.Proofs.Assembly.Preorder
import Idl.Proofs.Assembly.LineEnds
import Idl.Proofs.Assembly.Directives
import Idl.Proofs.Assembly.Definitions
import Idl.Proofs.Assembly.Growth
import Idl.Proofs.Assembly.Spans
import Idl.Proofs.Rendering.Written
import Idl.Proofs.Rendering.Render
import Idl.Proofs.Rendering.Names
import Idl.Proofs.Rendering.Types
import Idl.Proofs.Rendering.Declarations
import Idl.Proofs.Rendering.Tree
import Idl.Proofs.Token.Layout
import Idl.Proofs.Module.Linked
import Idl.Proofs.Module.Traversal
import Idl.Proofs.Token.Concatenation
import Idl.Proofs.Shape.Phrases
import Idl.Proofs.Shape.Trees
import Idl.Proofs.Listing.Entries
import Idl.Proofs.Listing.Lines
import Idl.Proofs.Listing.Sections
import Idl.Proofs.Listing.Tree
import Idl.Proofs.Shape.Bare
import Idl.Proofs.Reading.Steering
import Idl.Proofs.Statement.Steering
import Idl.Proofs.Assembly.Steering
import Idl.Proofs.Command.Outcome
import Idl.Proofs.Text.Bytes
import Idl.Proofs.Text.Lines
import Idl.Proofs.Text.Masking
import Idl.Proofs.Token.Automaton
import Idl.Proofs.Token.Masking
import Idl.Proofs.Module.Lookup
import Idl.Proofs.Listing.Types
import Idl.Proofs.Listing.Walk
import Idl.Proofs.Token.Listing
import Idl.Proofs.Diagnostic.Position
import Idl.Proofs.Diagnostic.Quotation
import Idl.Proofs.Diagnostic.Caret
import Idl.Proofs.Reading.Loops
import Idl.Proofs.Assembly.Progress
