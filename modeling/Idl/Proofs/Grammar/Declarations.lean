import Idl.Proofs.Grammar.Values
import Idl.Statement.Next

/-!
# Statements are read as the grammar has them

The readings know statements and the grammar knows nested bodies.  `Stated`
is the flat grammar between the two: what a keyword reads, up to the opening
brace where there is one.
-/

namespace Idl.Grammar

def siteAhead (ts : List Token) : Span :=
  ((next? ts).map Token.span).getD (.point 0)

/-! ## Statements that declare -/

inductive Stated : Keyword → Statement → Phrase where
  | module {name : String} {a b c : List Token}
      (hname : DeclaredText name a b) (hopen : Mark .openBrace b c) :
      Stated .module (.openModule name (siteAhead a)) a c
  | typedef {m : Member} {a b : List Token} (hfield : Field m a b) :
      Stated .typedef (.declare (.typedef m)) a b
  | struct {name : String} {bases : List String} {a b c d : List Token}
      (hname : DeclaredText name a b) (hbases : Bases bases b c)
      (hopen : Mark .openBrace c d) :
      Stated .struct (.openStruct name bases (siteAhead a)) a d
  | constant {t : TypeRef} {d : Declarator} {v : String}
      {a b c e f g : List Token}
      (htype : Typed t a b) (hname : Declared d b c)
      (hequals : Mark .equals c e) (hvalue : Value v e f)
      (hend : Mark .semicolon f g) :
      Stated .const (.declare (.constant ⟨d.name, d.bind t, v⟩)) a g
  | enum {name : String} {a b c : List Token}
      (hname : DeclaredText name a b) (hopen : Mark .openBrace b c) :
      Stated .enum (.openEnum name (siteAhead a)) a c
  | forward {name : String} {a b c : List Token}
      (hname : DeclaredText name a b) (hend : Mark .semicolon b c) :
      Stated .interface (.declare (.interface ⟨name, [], []⟩)) a c
  | interface {name : String} {bases : List String} {a b c d : List Token}
      (hname : DeclaredText name a b) (hbases : Bases bases b c)
      (hopen : Mark .openBrace c d) :
      Stated .interface (.openInterface name bases (siteAhead a)) a d
  | union {name : String} {t : TypeRef} {a b c d e f g : List Token}
      (hname : DeclaredText name a b) (hswitch : Word "switch" b c)
      (hopen : Mark .openRound c d) (htype : Typed t d e)
      (hclose : Mark .closeRound e f) (hbrace : Mark .openBrace f g) :
      Stated .union (.openUnion name t (siteAhead a)) a g

theorem reads_place : Reads place fun x a b => x = siteAhead a ∧ a = b where
  sound hts h := by
    cases h
    refine ⟨⟨?_, rfl⟩, hts⟩
    rw [siteAhead, next?_eq, hts]
  complete := by
    intro ts x rest hparts
    rcases hparts with ⟨rfl, rfl⟩
    simp [place, siteAhead, next?_eq]

theorem reads_heading (production : Production) :
    Reads (heading production) fun h a b =>
      DeclaredText h.name a b ∧ h.site = siteAhead a := by
  have hread := reads_place.bind fun site =>
    (reads_declaredText production).bind fun name =>
      reads_pure (⟨name, site⟩ : Heading)
  apply hread.congr
  intro h a c
  constructor
  · intro hparts
    rcases hparts with ⟨site, _, ⟨rfl, rfl⟩, name, _, hname, rfl, rfl⟩
    exact ⟨hname, rfl⟩
  · intro hparts
    rcases hparts with ⟨hname, hsite⟩
    exact ⟨_, a, ⟨rfl, rfl⟩, _, c, hname, by rw [← hsite], rfl⟩

theorem reads_readMember (production : Production) :
    Reads (readMember production) Field := by
  refine ((reads_readType production).bind fun t =>
    (reads_declarator production).bind fun d =>
      (reads_expect (by decide) production).bind fun _ =>
        reads_pure (⟨d.name, d.bind t⟩ : Member)).congr fun m a e => ?_
  constructor
  · intro hparts
    rcases hparts with ⟨t, b, ht, d, c, hd, -, _, hend, rfl, rfl⟩
    exact .intro ht hd hend
  · intro hparts
    rcases hparts with ⟨ht, hd, hend⟩
    exact ⟨_, _, ht, _, _, hd, (), _, hend, rfl, rfl⟩

theorem reads_readModule : Reads readModule (Stated .module) := by
  refine ((reads_heading .moduleName).bind fun h =>
    (reads_expect (by decide) .moduleName).bind fun _ =>
      reads_pure (Statement.openModule h.name h.site)).congr fun s a d => ?_
  constructor
  · intro hparts
    rcases hparts with ⟨⟨name, site⟩, b, ⟨hname, rfl⟩, -, c, hopen, rfl, rfl⟩
    exact .module hname hopen
  · intro h
    cases h with
    | module hname hopen =>
        exact ⟨⟨_, _⟩, _, ⟨hname, rfl⟩, (), _, hopen, rfl, rfl⟩

theorem reads_typedef : Reads Keyword.typedef.statement (Stated .typedef) := by
  have hread := (reads_readMember .typedef).bind fun m =>
    reads_pure (Statement.declare (.typedef m))
  apply hread.congr
  intro s a c
  constructor
  · intro hparts
    rcases hparts with ⟨m, b, hfield, rfl, rfl⟩
    exact .typedef hfield
  · intro h
    cases h with
    | typedef hfield => exact ⟨_, _, hfield, rfl, rfl⟩

theorem reads_bases :
    Reads (do if ← eat .colon then declaredTexts .structBases else return [])
      Bases := by
  refine (reads_eat_bind (by decide) (reads_declaredTexts .structBases)
    (reads_pure [])).congr fun bases a c => ?_
  constructor
  · rintro (⟨b, hcolon, hbases⟩ | ⟨hnext, rfl, rfl⟩)
    · exact .given hcolon hbases
    · exact .absent hnext
  · rintro (hnext | ⟨hcolon, hbases⟩)
    · exact .inr ⟨hnext, rfl, rfl⟩
    · exact .inl ⟨_, hcolon, hbases⟩

theorem reads_readStruct : Reads readStruct (Stated .struct) := by
  refine ((reads_heading .structHeader).bind fun h =>
    reads_bases.bind fun bases =>
      (reads_expect (by decide) .structHeader).bind fun _ =>
        reads_pure (Statement.openStruct h.name bases h.site)).congr
          fun s a e => ?_
  constructor
  · intro hparts
    rcases hparts with
      ⟨⟨name, site⟩, b, ⟨hname, rfl⟩, bases, c, hbases, -, d, hopen, rfl, rfl⟩
    exact .struct hname hbases hopen
  · intro h
    cases h with
    | struct hname hbases hopen =>
        exact ⟨⟨_, _⟩, _, ⟨hname, rfl⟩, _, _, hbases, (), _, hopen, rfl, rfl⟩

theorem reads_readConstant :
    Reads Keyword.const.statement (Stated .const) := by
  refine (((reads_readType .constant).bind fun t =>
    (reads_declarator .constant).bind fun d =>
      (reads_expect (by decide) .constant).bind fun _ =>
        reads_constantValue.bind fun v =>
          (reads_expect (by decide) .constant).bind fun _ =>
            reads_pure (⟨d.name, d.bind t, v⟩ : Constant)).bind fun c =>
              reads_pure (Statement.declare (.constant c))).congr
                fun s a h => ?_
  constructor
  · intro hparts
    rcases hparts with
      ⟨_, _, ⟨t, b, ht, d, c, hd, -, e, hequals, v, f, hv, -, g, hend, rfl, rfl⟩, rfl, rfl⟩
    exact .constant ht hd hequals hv hend
  · intro h
    cases h with
    | constant ht hd hequals hv hend =>
        exact ⟨_, _, ⟨_, _, ht, _, _, hd, (), _, hequals, _, _, hv, (), _,
          hend, rfl, rfl⟩, rfl, rfl⟩

theorem reads_readEnum : Reads readEnum (Stated .enum) := by
  refine ((reads_heading .enumHeader).bind fun h =>
    (reads_expect (by decide) .enumHeader).bind fun _ =>
      reads_pure (Statement.openEnum h.name h.site)).congr fun s a d => ?_
  constructor
  · intro hparts
    rcases hparts with ⟨⟨name, site⟩, b, ⟨hname, rfl⟩, -, c, hopen, rfl, rfl⟩
    exact .enum hname hopen
  · intro h
    cases h with
    | enum hname hopen =>
        exact ⟨⟨_, _⟩, _, ⟨hname, rfl⟩, (), _, hopen, rfl, rfl⟩

theorem reads_interfaceBases :
    Reads interfaceBases fun bases a c =>
      ∃ b, Separated .comma DeclaredText bases a b ∧ Mark .openBrace b c := by
  refine ((reads_declaredTexts .interfaceBases).bind fun bases =>
    (reads_expect (by decide) .interfaceBases).bind fun _ =>
      reads_pure bases).congr fun bases a d => ?_
  constructor
  · intro hparts
    rcases hparts with ⟨_, b, hbases, -, c, hopen, rfl, rfl⟩
    exact ⟨b, hbases, hopen⟩
  · intro hparts
    rcases hparts with ⟨b, hbases, hopen⟩
    exact ⟨_, b, hbases, (), _, hopen, rfl, rfl⟩

theorem reads_invalidInterface :
    Reads invalidInterface fun _ _ _ => False where
  sound _ h := by cases h
  complete h := h.elim

theorem reads_readInterface : Reads readInterface (Stated .interface) := by
  refine ((reads_heading .interfaceHeader).bind fun h =>
    reads_eat_bind (by decide)
      (reads_pure (Statement.declare (.interface ⟨h.name, [], []⟩)))
      (reads_eat_bind (by decide)
        (reads_pure (Statement.openInterface h.name [] h.site))
        (reads_eat_bind (by decide)
          (reads_interfaceBases.bind fun bases =>
            reads_pure (Statement.openInterface h.name bases h.site))
          reads_invalidInterface))).congr fun s a d => ?_
  constructor
  · intro hparts
    rcases hparts with ⟨⟨name, site⟩, b, ⟨hname, rfl⟩, hform⟩
    rcases hform with ⟨c, hend, rfl, rfl⟩ | ⟨-, ⟨c, hopen, rfl, rfl⟩ |
      ⟨-, ⟨c, hcolon, bases, e, ⟨f, hbases, hopen⟩, rfl, rfl⟩ | ⟨-, h⟩⟩⟩
    · exact .forward hname hend
    · exact .interface hname (.absent (hopen.not_ahead (by decide) (by decide)))
        hopen
    · exact .interface hname (.given hcolon hbases) hopen
    · exact h.elim
  · intro h
    cases h with
    | forward hname hend =>
        exact ⟨⟨_, _⟩, _, ⟨hname, rfl⟩, .inl ⟨_, hend, rfl, rfl⟩⟩
    | interface hname hbases hopen =>
        refine ⟨⟨_, _⟩, _, ⟨hname, rfl⟩, .inr ?_⟩
        cases hbases with
        | absent hnext =>
            exact ⟨hopen.not_ahead (by decide) (by decide),
              .inl ⟨_, hopen, rfl, rfl⟩⟩
        | given hcolon hbases =>
            refine ⟨hcolon.not_ahead (by decide) (by decide), .inr
              ⟨hcolon.not_ahead (by decide) (by decide), .inl ?_⟩⟩
            exact ⟨_, hcolon, _, _, ⟨_, hbases, hopen⟩, rfl, rfl⟩

theorem reads_readUnion : Reads readUnion (Stated .union) := by
  refine ((reads_heading .unionHeader).bind fun h =>
    (reads_expectWord "switch" .expectedSwitch).bind fun _ =>
      (reads_expect (by decide) .unionDiscriminant).bind fun _ =>
        (reads_readType .unionDiscriminant).bind fun t =>
          (reads_expect (by decide) .unionDiscriminant).bind fun _ =>
            (reads_expect (by decide) .unionDiscriminant).bind fun _ =>
              reads_pure (Statement.openUnion h.name t h.site)).congr
                fun s a i => ?_
  constructor
  · intro hparts
    rcases hparts with
      ⟨⟨name, site⟩, b, ⟨hname, rfl⟩, -, c, hswitch, -, d, hopen, t, e, ht, -, f, hclose, -, g, hbrace, rfl, rfl⟩
    exact .union hname hswitch hopen ht hclose hbrace
  · intro h
    cases h with
    | union hname hswitch hopen ht hclose hbrace =>
        exact ⟨⟨_, _⟩, _, ⟨hname, rfl⟩, (), _, hswitch, (), _, hopen, _, _, ht,
          (), _, hclose, (), _, hbrace, rfl, rfl⟩

theorem reads_keyword_statement (keyword : Keyword) :
    Reads keyword.statement (Stated keyword) := by
  cases keyword with
  | module => exact reads_readModule
  | typedef => exact reads_typedef
  | struct => exact reads_readStruct
  | const => exact reads_readConstant
  | enum => exact reads_readEnum
  | interface => exact reads_readInterface
  | union => exact reads_readUnion

end Idl.Grammar
