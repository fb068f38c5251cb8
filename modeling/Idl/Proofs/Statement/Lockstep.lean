import Idl.Proofs.Grammar.Next
import Idl.Proofs.Reading.Lockstep

/-!
# Statements in lockstep

On streams that are read in step every statement is read alike in every scope.
The statements may differ in one thing, the place of the name that opens a
scope, and that place is known: it is where the first token behind the keyword
stands.
-/

namespace Idl

open Grammar

namespace Statement

/-- The same statement with the name of the scope it opens elsewhere. -/
def resite (site : Span) : Statement → Statement
  | openModule name _ => openModule name site
  | openStruct name bases _ => openStruct name bases site
  | openEnum name _ => openEnum name site
  | openInterface name bases _ => openInterface name bases site
  | openUnion name discriminant _ => openUnion name discriminant site
  | s => s

end Statement

/-- The same statement up to the place of a name. -/
def Restated (s s' : Statement) : Prop :=
  ∀ site, s.resite site = s'.resite site

theorem Restated.refl (s : Statement) : Restated s s := fun _ => rfl

/-! ## The place of a name -/

theorem siteAhead_congr {ts us : List Token}
    (h : skipLines ts = skipLines us) : siteAhead ts = siteAhead us := by
  rw [siteAhead, next?_eq, h, siteAhead, next?_eq]

theorem Grammar.Stated.resite {keyword : Keyword} {s : Statement}
    {ts rest : List Token} (h : Stated keyword s ts rest) :
    s.resite (siteAhead ts) = s := by
  cases h <;> rfl

theorem Grammar.Worded.resite {scope : ScopeKind} {s : Statement} {t : Token}
    {ts rest : List Token} (h : Worded scope s (t :: ts) rest) :
    s.resite (siteAhead ts) = s := by
  cases h with
  | declaring hscope hword hstated =>
      rcases hword.front with ⟨u, us, hcons, -, -, hrest⟩
      cases hcons
      rw [siteAhead_congr hrest]
      exact hstated.resite
  | _ => rfl

/-- The name stands directly behind the first token of the statement. -/
theorem resite_of_readStatement {scope : ScopeKind} {t : Token}
    {ts rest : List Token} {s : Statement}
    (h : readStatement scope t ts = .ok (s, rest)) :
    s.resite (siteAhead ts) = s := by
  cases said_of_readStatement h with
  | worded hworded => exact hworded.resite
  | _ => rfl

theorem Restated.eq_of_site {scope : ScopeKind} {t u : Token}
    {ts us rest rest' : List Token} {s s' : Statement} (h : Restated s s')
    (hs : readStatement scope t ts = .ok (s, rest))
    (hs' : readStatement scope u us = .ok (s', rest'))
    (hsite : siteAhead ts = siteAhead us) : s = s' := by
  rw [← resite_of_readStatement hs, h, hsite, resite_of_readStatement hs']

/-! ## The front of a directive -/

theorem readDefine_refused {ts : List Token}
    (hkind : ∀ t ∈ ts.head?, t.kind ≠ .identifier) :
    readDefine ts = refuse .identifier
      (fun t => .expected .identifier .directive t.describe) ts := by
  cases ts with
  | nil => rfl
  | cons t ts =>
      have hname : wordOnLine .directive (t :: ts) =
          .error (.expected .identifier .directive (t :: ts)) := by
        rw [wordOnLine, textOnLine, if_neg (hkind t rfl)]
      rw [readDefine, reading_bind_eq_of_error hname]
      exact Composed.mismatch_eq .identifier _ (t :: ts)

theorem readDirective_cons (t : Token) (ts : List Token) :
    readDirective (t :: ts) =
      if t.isWord "define" then readDefine (skipLines ts)
      else if t.isWord "include" then readInclude (skipLines ts)
      else refuse .identifier noDirective (t :: ts) := by
  rw [Composed.readDirective_eq, Composed.eatWord_choice_cons,
    Composed.eatWord_choice_cons]

theorem readDirective_refused {ts : List Token}
    (hword : ∀ t ∈ ts.head?,
      t.isWord "define" = false ∧ t.isWord "include" = false) :
    readDirective ts = refuse .identifier noDirective ts := by
  cases ts with
  | nil => rfl
  | cons t ts =>
      obtain ⟨hdefine, hinclude⟩ := hword t rfl
      simp [readDirective_cons, hdefine, hinclude]

theorem readStatement_of_hash {t : Token} (hhash : t.kind = .hash)
    (scope : ScopeKind) (ts : List Token) :
    readStatement scope t ts =
      (Statement.directive <$> readDirective) (skipLines ts) := by
  simp only [readStatement, hhash]

namespace InStep

variable {S : List Token → List Token → Prop}

/-! ## Statements that declare -/

/-- The place of a name is where it begins, so names that are read in step may
stand at different places. -/
theorem heading (hS : InStep S) (production : Production) :
    Agrees S (fun h h' => h.name = h'.name) (Idl.heading production)
      (Idl.heading production) := by
  constructor
  intro ts us h
  have hplace : Agreed S S (fun _ _ => True) (place ts) (place us) :=
    .ok trivial h
  refine hplace.bind fun site site' _ _ _ _ hmid => ?_
  have hname : Agrees S (fun h h' : Heading => h.name = h'.name)
      (do return ⟨← Idl.declaredText production, site⟩)
      (do return ⟨← Idl.declaredText production, site'⟩) :=
    (hS.declaredText production).andThen fun _ => pairs_pure rfl
  exact hname.paired hmid

theorem readMember (hS : InStep S) (production : Production) :
    Agrees S Eq (Idl.readMember production) (Idl.readMember production) :=
  (hS.readType production).andThen fun _ =>
    (hS.declarator production).andThen fun _ =>
      (hS.expect (by decide) production).yield fun _ => rfl

theorem readConstant (hS : InStep S) :
    Agrees S Eq Idl.readConstant Idl.readConstant :=
  (hS.readType _).andThen fun _ => (hS.declarator _).andThen fun _ =>
    (hS.expect (by decide) _).andThen fun _ => hS.constantValue.andThen
      fun _ => (hS.expect (by decide) _).yield fun _ => rfl

theorem readModule (hS : InStep S) :
    Agrees S Restated Idl.readModule Idl.readModule :=
  (hS.heading _).bind fun _ _ hname =>
    (hS.expect (by decide) _).yield fun _ _ => by
      simp only [Statement.resite, hname]

theorem readStruct (hS : InStep S) :
    Agrees S Restated Idl.readStruct Idl.readStruct := by
  refine (hS.heading _).bind fun _ _ hname => Pairs.andThen
    (r := do
      if ← Idl.eat .colon then Idl.declaredTexts .structBases else return [])
    ?_ fun _ => (hS.expect (by decide) _).yield fun _ _ => by
      simp only [Statement.resite, hname]
  exact (hS.eat (by decide)).andThen fun _ =>
    (hS.declaredTexts _).choice (pairs_pure rfl)

theorem readEnum (hS : InStep S) :
    Agrees S Restated Idl.readEnum Idl.readEnum :=
  (hS.heading _).bind fun _ _ hname =>
    (hS.expect (by decide) _).yield fun _ _ => by
      simp only [Statement.resite, hname]

theorem interfaceBases (hS : InStep S) :
    Agrees S Eq Idl.interfaceBases Idl.interfaceBases :=
  (hS.declaredTexts _).andThen fun _ =>
    (hS.expect (by decide) _).yield fun _ => rfl

theorem invalidInterface {R : Statement → Statement → Prop} :
    Agrees S R Idl.invalidInterface Idl.invalidInterface := by
  have hrefuse : Idl.invalidInterface = refuse .openBrace fun t =>
      .invalidInterface t.describe := by
    funext ts
    exact Composed.mismatch_eq .openBrace _ ts
  rw [hrefuse]
  exact agrees_refuse _ fun _ _ h => congrArg _ (Token.describe_eq h)

theorem readInterface (hS : InStep S) :
    Agrees S Restated Idl.readInterface Idl.readInterface :=
  (hS.heading _).bind fun _ _ hname => (hS.eat (by decide)).andThen fun _ =>
    (pairs_pure fun _ => by simp only [Statement.resite, hname]).choice <|
      (hS.eat (by decide)).andThen fun _ =>
        (pairs_pure fun _ => by simp only [Statement.resite, hname]).choice <|
          (hS.eat (by decide)).andThen fun _ =>
            (hS.interfaceBases.yield fun _ _ => by
              simp only [Statement.resite, hname]).choice invalidInterface

theorem readUnion (hS : InStep S) :
    Agrees S Restated Idl.readUnion Idl.readUnion :=
  (hS.heading _).bind fun _ _ hname => (hS.expectWord _ _).andThen fun _ =>
    (hS.expect (by decide) _).andThen fun _ => (hS.readType _).andThen fun _ =>
      (hS.expect (by decide) _).andThen fun _ =>
        (hS.expect (by decide) _).yield fun _ _ => by
          simp only [Statement.resite, hname]

theorem keyword_statement (hS : InStep S) (keyword : Keyword) :
    Agrees S Restated keyword.statement keyword.statement := by
  cases keyword with
  | module => exact hS.readModule
  | typedef => exact (hS.readMember _).yield fun _ => .refl _
  | struct => exact hS.readStruct
  | const => exact hS.readConstant.yield fun _ => .refl _
  | enum => exact hS.readEnum
  | interface => exact hS.readInterface
  | union => exact hS.readUnion

/-! ## Statements that fill a declaration -/

theorem readEnumerator (hS : InStep S) :
    Agrees S Eq Idl.readEnumerator Idl.readEnumerator :=
  (hS.word _).andThen fun _ => hS.skipCommas.yield fun _ => rfl

theorem readDirection (hS : InStep S) :
    Agrees S Eq Idl.readDirection Idl.readDirection := by
  have hrefuse : Agrees S Eq (refuse .identifier noDirection)
      (refuse .identifier noDirection : Reading Direction) :=
    agrees_refuse _ fun _ _ h => by
      simp only [noDirection, Token.kind_eq h, Token.describe_eq h]
  rw [Composed.readDirection_eq]
  exact (hS.eatWord _).andThen fun _ => (pairs_pure rfl).choice <|
    (hS.eatWord _).andThen fun _ => (pairs_pure rfl).choice <|
      (hS.eatWord _).andThen fun _ => (pairs_pure rfl).choice hrefuse

theorem readParameter (hS : InStep S) :
    Agrees S Eq Idl.readParameter Idl.readParameter :=
  hS.readDirection.andThen fun _ => (hS.readType _).andThen fun _ =>
    (hS.ahead (by decide)).andThen fun _ =>
      ((hS.declarator _).yield fun _ => rfl).choice (pairs_pure rfl)

theorem readParameters (hS : InStep S) :
    Agrees S Eq Idl.readParameters Idl.readParameters :=
  (hS.eat (by decide)).andThen fun _ =>
    ((hS.expect (by decide) _).yield fun _ => rfl).choice <|
      (hS.separated (by decide) _ hS.readParameter).andThen fun _ =>
        (hS.expect (by decide) _).andThen fun _ =>
          (hS.eat (by decide)).yield fun _ => rfl

theorem readMethod (hS : InStep S) :
    Agrees S Eq Idl.readMethod Idl.readMethod :=
  (hS.readType _).andThen fun _ => (hS.declaredText _).andThen fun _ =>
    (hS.expect (by decide) _).andThen fun _ =>
      hS.readParameters.yield fun _ => rfl

theorem readCase (hS : InStep S) :
    Agrees S Eq Idl.readCase Idl.readCase :=
  (hS.expectWord _ _).andThen fun _ => (hS.expect (by decide) _).andThen
    fun _ => (hS.readType _).andThen fun _ =>
      (hS.expect (by decide) _).andThen fun _ =>
        (hS.expect (by decide) _).andThen fun _ =>
          (hS.readMember _).yield fun _ => rfl

/-! ## Directives -/

/-- What follows the name of a definition: a word on the same line, or none. -/
inductive Valued (T : List Token → List Token → Prop) :
    List Token → List Token → Prop where
  | none {ts us : List Token} (hts : ∀ v ∈ ts.head?, v.kind ≠ .identifier)
      (hus : ∀ v ∈ us.head?, v.kind ≠ .identifier) (h : T ts us) :
      Valued T ts us
  | word {v w : Token} {ts us : List Token} (hkind : v.kind = .identifier)
      (hshape : v.shape = w.shape) (h : T ts us) :
      Valued T (v :: ts) (w :: us)

/-- A definition is read in step where line ends stand at the same places
behind its name. -/
theorem readDefine {T : List Token → List Token → Prop} (hS : InStep S)
    {ts us : List Token} (h : S ts us)
    (hvalue : ∀ n m rest rest', ts = n :: rest → us = m :: rest' →
      n.kind = .identifier → Valued T rest rest') :
    Agreed S T Eq (Idl.readDefine ts) (Idl.readDefine us) := by
  have hfault : ∀ t u : Token, t.shape = u.shape →
      Fault.expected .identifier .directive t.describe =
        .expected .identifier .directive u.describe :=
    fun _ _ hshape => congrArg _ (Token.describe_eq hshape)
  cases hS _ _ h with
  | halted hts hus =>
      rw [readDefine_refused (hts.front_ne (by decide)),
        readDefine_refused (hus.front_ne (by decide))]
      exact agreed_refuse _ hfault h
  | @token n m ts us hname _ _ _ =>
      have hkind := Token.kind_eq hname
      by_cases hn : n.kind = .identifier
      · have hm : m.kind = .identifier := hkind ▸ hn
        cases hvalue n m ts us rfl rfl hn with
        | none hts hus hrest =>
            rw [readDefine_of_none hn hts, readDefine_of_none hm hus]
            exact .ok (by rw [Token.text_eq hname]) hrest
        | word hv hshape hrest =>
            rw [readDefine_of_value hn hv,
              readDefine_of_value hm (Token.kind_eq hshape ▸ hv)]
            exact .ok (by rw [Token.text_eq hname, Token.text_eq hshape]) hrest
      · rw [readDefine_refused (by simpa using hn),
          readDefine_refused (by simpa using hkind ▸ hn)]
        exact agreed_refuse _ hfault h

theorem readInclude (hS : InStep S) :
    Agrees S Eq Idl.readInclude Idl.readInclude := by
  have hread : Idl.readInclude = (do
      return .include (← Idl.textToken .literal .directive)) := by
    simp [Idl.readInclude, Idl.textToken]
  rw [hread]
  exact (hS.textToken (by decide) _).yield fun _ => rfl

/-- A directive is read in step where a definition is. -/
theorem readDirective {T : List Token → List Token → Prop} (hS : InStep S)
    (hT : ∀ ts us, S ts us → T ts us) {ts us : List Token} (h : S ts us)
    (hdefine : ∀ d e rest rest', ts = d :: rest → us = e :: rest' →
      d.isWord "define" → S (skipLines rest) (skipLines rest') →
        Agreed S T Eq (Idl.readDefine (skipLines rest))
          (Idl.readDefine (skipLines rest'))) :
    Agreed S T Eq (Idl.readDirective ts) (Idl.readDirective us) := by
  have hrefuse : ∀ ts us, S ts us → Agreed S T (Eq (α := Directive))
      (refuse .identifier noDirective ts)
      (refuse .identifier noDirective us) :=
    fun _ _ => agreed_refuse _ fun _ _ hshape => by
      simp only [noDirective, Token.kind_eq hshape, Token.text_eq hshape,
        Token.describe_eq hshape]
  cases hS _ _ h with
  | halted hts hus =>
      rw [readDirective_refused fun t ht =>
          ⟨hts.isWord t ht _, hts.isWord t ht _⟩,
        readDirective_refused fun t ht =>
          ⟨hus.isWord t ht _, hus.isWord t ht _⟩]
      exact hrefuse _ _ h
  | @token d e ts us hshape _ _ hbehind =>
      rw [readDirective_cons, readDirective_cons, Token.isWord_eq hshape,
        Token.isWord_eq hshape]
      split
      next hword =>
        exact hdefine d e ts us rfl rfl (Token.isWord_eq hshape _ ▸ hword)
          hbehind
      next =>
        split
        next => exact (hS.readInclude.paired hbehind).mono_rests (fun _ _ => id) hT
        next => exact hrefuse _ _ h

/-! ## Statements in a scope -/

theorem keywordStatement (hS : InStep S) (scope : ScopeKind)
    (keywords : List Keyword) :
    Agrees S Restated (Idl.keywordStatement scope keywords)
      (Idl.keywordStatement scope keywords) := by
  induction keywords with
  | nil =>
      exact agrees_refuse _ fun _ _ h => by simp only [Token.text_eq h]
  | cons keyword keywords ih =>
      exact (hS.eatWord _).andThen fun _ =>
        (hS.keyword_statement keyword).choice ih

theorem wordStatement (hS : InStep S) (scope : ScopeKind) :
    Agrees S Restated (Idl.wordStatement scope) (Idl.wordStatement scope) := by
  cases scope with
  | global => exact hS.keywordStatement _ _
  | module => exact hS.keywordStatement _ _
  | struct => exact (hS.readMember _).map fun _ => .refl _
  | enum => exact hS.readEnumerator.map fun _ => .refl _
  | interface => exact hS.readMethod.map fun _ => .refl _
  | union => exact hS.readCase.map fun _ => .refl _

/-- A statement that is not a directive is read in step. -/
theorem readStatement (hS : InStep S) (scope : ScopeKind) {t u : Token}
    {ts us : List Token} (h : S (t :: ts) (u :: us)) (hhash : t.kind ≠ .hash) :
    Agreed S S Restated (Idl.readStatement scope t ts)
      (Idl.readStatement scope u us) := by
  generalize hts : t :: ts = first at h
  generalize hus : u :: us = second at h
  have hfronts := hS _ _ h
  cases hfronts with
  | halted hfirst =>
      subst hts
      cases hfirst with
      | hash hkind => exact absurd hkind hhash
  | token hshape _ _ hbehind =>
      cases hts
      cases hus
      have hkind := Token.kind_eq hshape
      unfold Idl.readStatement
      rw [← hkind]
      split
      next hkind' => exact absurd hkind' hhash
      next hword =>
        rw [← Composed.wordStatement_cons scope hword,
          ← Composed.wordStatement_cons scope (hkind ▸ hword)]
        exact (hS.wordStatement scope).paired h
      next =>
        split
        · exact .error h fun _ => rfl
        · exact .ok (.refl _) hbehind
      next => exact .ok (.refl _) hbehind

end InStep

end Idl
