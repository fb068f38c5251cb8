import Idl.Token

/-!
# Listing of tokens

A headline with the number of tokens, then one indented line for each token.
-/

namespace Idl

def tokenListing (ts : List Token) : String :=
  "Tokens (" ++ ts.length.repr ++ "):\n" ++
    String.join (ts.map fun t => "  " ++ t.listing ++ "\n")

end Idl
