import Idl.Assembly
import Idl.Proofs.Grammar.Next
import Idl.Proofs.Reading.Productions

/-!
# Room for the rest

Wherever a run stops, `room` says how many tokens are enough to complete the
statement it is in.  The braces of the scopes that are open come on top.

Reading a statement never makes this worse (`room_apply`).  A scope that is
opened costs a brace, but the statement that opens it has taken three tokens.  A
scope that is closed has cost a brace, so the statement behind it may need one
token more.
-/

namespace Idl

/-! ## The scopes behind a statement -/

theorem scopes_fill (a : Assembly)
    (change : Target → ModuleDecl → ModuleDecl) :
    (a.fill change).scopes = a.scopes := by
  unfold Assembly.fill
  split <;> rfl

theorem scopes_close (a : Assembly) : a.close.scopes = a.scopes.tail := by
  unfold Assembly.close
  split
  next hscopes => rw [hscopes]; rfl
  next hscopes => split <;> rw [hscopes, List.tail_cons]

/-- The name of the scope that a statement opens. -/
def Statement.opens? : Statement → Option String
  | .openModule name _ => some name
  | .openStruct name _ _ => some name
  | .openEnum name _ => some name
  | .openInterface name _ _ => some name
  | .openUnion name _ _ => some name
  | _ => none

section
variable {scope : ScopeKind} {t : Token} {ts rest : List Token} {s : Statement}
  {name : String}

/-- Only a keyword opens a scope, and it is not that of a constant. -/
theorem keyword_of_opens (h : readStatement scope t ts = .ok (s, rest))
    (hopens : s.opens? = some name) :
    (scope = .global ∨ scope = .module) ∧ ∃ keyword : Keyword,
      keyword ≠ .const ∧ t.text = keyword.word ∧
        keyword.statement (skipLines ts) = .ok (s, rest) := by
  cases Grammar.said_of_readStatement h with
  | worded hworded =>
      cases hworded with
      | @declaring _ keyword _ _ _ _ hscope hword hstated =>
          rcases hword.front with ⟨_, _, hcons, hkind, htext, -⟩
          cases hcons
          have hconst : keyword ≠ .const := by
            rintro rfl
            cases hstated
            cases hopens
          rw [Grammar.readStatement_of_word hkind] at h
          refine ⟨hscope, keyword, hconst, htext, ?_⟩
          rcases hscope with rfl | rfl
          all_goals
            simpa only [readWordStatement, htext,
              Grammar.ofWord?_word_keyword] using h
      | _ => cases hopens
  | _ => cases hopens

end

end Idl
