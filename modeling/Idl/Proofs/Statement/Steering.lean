import Idl.Proofs.Reading.Steering

/-!
# The words that steer a statement

Every statement is read the same way on streams that are akin, in every scope,
and what is read differs in texts and sites only (`steers_nextStatement`).
Directives are no exception, as streams that are akin have their line ends at
the same places.
-/

namespace Idl

/-! ## Statements that declare -/

theorem steers_heading (production : Production) :
    Steers (fun _ _ => True) (heading production) (heading production) :=
  steers_place.bind fun _ _ _ =>
    (steers_declaredText production).yield fun _ _ _ => trivial

theorem bare_bind_eq {d e : Declarator} {t u : TypeRef}
    (hdeclared : Matching Declarator.bare d e)
    (htype : Matching TypeRef.bare t u) :
    (d.bind t).bare = (e.bind u).bare := by
  rw [Declarator.bare_bind, hdeclared, htype, ← Declarator.bare_bind]

theorem steers_readMember (production : Production) :
    Steers (Matching Member.bare) (readMember production)
      (readMember production) :=
  (steers_readType production).bind fun _ _ htype =>
    (steers_declarator production).bind fun _ _ hdeclared =>
      (steers_expect _ _).yield fun _ _ _ =>
        congrArg (Member.mk "") (bare_bind_eq hdeclared htype)

theorem steers_readConstant :
    Steers (Matching Constant.bare) readConstant readConstant :=
  (steers_readType _).bind fun _ _ htype =>
    (steers_declarator _).bind fun _ _ hdeclared =>
      (steers_expect _ _).bind fun _ _ _ =>
        steers_constantValue.bind fun _ _ _ =>
          (steers_expect _ _).yield fun _ _ _ =>
            congrArg (Constant.mk "" · "") (bare_bind_eq hdeclared htype)

theorem steers_readModule :
    Steers (Matching Statement.bare) readModule readModule :=
  (steers_heading _).bind fun _ _ _ =>
    (steers_expect _ _).yield fun _ _ _ => rfl

theorem steers_readStruct :
    Steers (Matching Statement.bare) readStruct readStruct := by
  refine (steers_heading _).bind fun _ _ _ => Pairs.bind
    (R := Matching (List.map blanked)) ?_ fun bases bases' hbases =>
      (steers_expect _ _).yield fun _ _ _ =>
        congrArg (Statement.openStruct "" · (.point 0)) hbases
  exact (steers_eat .colon).branch (steers_declaredTexts _) (pairs_pure rfl)

theorem steers_readEnum :
    Steers (Matching Statement.bare) readEnum readEnum :=
  (steers_heading _).bind fun _ _ _ =>
    (steers_expect _ _).yield fun _ _ _ => rfl

theorem steers_interfaceBases :
    Steers (Matching (List.map blanked)) interfaceBases interfaceBases :=
  (steers_declaredTexts _).bind fun _ _ hbases =>
    (steers_expect _ _).yield fun _ _ _ => hbases

theorem steers_invalidInterface {R : Statement → Statement → Prop} :
    Steers R invalidInterface invalidInterface :=
  ⟨fun h => steered_mismatch .openBrace (fun _ _ => rfl) h⟩

theorem steers_readInterface :
    Steers (Matching Statement.bare) readInterface readInterface :=
  (steers_heading _).bind fun _ _ _ =>
    (steers_eat .semicolon).branch (pairs_pure rfl) <|
      (steers_eat .openBrace).branch (pairs_pure rfl) <|
        (steers_eat .colon).branch
          (steers_interfaceBases.yield fun _ _ hbases =>
            congrArg (Statement.openInterface "" · (.point 0)) hbases)
          steers_invalidInterface

theorem steers_readUnion :
    Steers (Matching Statement.bare) readUnion readUnion :=
  (steers_heading _).bind fun _ _ _ =>
    (steers_expectWord (by decide) fun _ _ => rfl).bind fun _ _ _ =>
      (steers_expect _ _).bind fun _ _ _ =>
        (steers_readType _).bind fun _ _ htype =>
          (steers_expect _ _).bind fun _ _ _ =>
            (steers_expect _ _).yield fun _ _ _ =>
              congrArg (Statement.openUnion "" · (.point 0)) htype

theorem steers_keyword_statement (keyword : Keyword) :
    Steers (Matching Statement.bare) keyword.statement keyword.statement := by
  cases keyword with
  | module => exact steers_readModule
  | typedef =>
      exact (steers_readMember _).yield fun _ _ h =>
        congrArg (fun m => Statement.declare (.typedef m)) h
  | struct => exact steers_readStruct
  | const =>
      exact steers_readConstant.yield fun _ _ h =>
        congrArg (fun c => Statement.declare (.constant c)) h
  | enum => exact steers_readEnum
  | interface => exact steers_readInterface
  | union => exact steers_readUnion

/-! ## Statements that fill a declaration -/

theorem steers_readEnumerator :
    Steers (fun _ _ => True) readEnumerator readEnumerator :=
  (steers_word _).bind fun _ _ _ =>
    steers_skipCommas.yield fun _ _ _ => trivial

theorem steers_readDirection : Steers Eq readDirection readDirection := by
  rw [Composed.readDirection_eq]
  refine (steers_eatWord (by decide)).branch (pairs_pure rfl) <|
    (steers_eatWord (by decide)).branch (pairs_pure rfl) <|
      (steers_eatWord (by decide)).branch (pairs_pure rfl) <|
        steers_refuse _ fun t u h => ?_
  rw [noDirection, noDirection, ← h.kind]
  split <;> rfl

theorem steers_readParameter :
    Steers (Matching Parameter.bare) readParameter readParameter :=
  steers_readDirection.bind fun direction _ hsame =>
    (steers_readType _).bind fun t u htype =>
      (steers_ahead .identifier).branch
        ((steers_declarator _).yield fun d e hdeclared => by
          simp only [Matching, Parameter.bare, hsame,
            bare_bind_eq hdeclared htype]
          rfl)
        (pairs_pure (by
          simp only [Matching, Parameter.bare, hsame]
          rw [htype]))

theorem steers_readParameters :
    Steers (Matching (List.map Parameter.bare)) readParameters
      readParameters :=
  (steers_eat .closeRound).branch
    ((steers_expect _ _).yield fun _ _ _ => rfl)
    ((pairs_separated (steers_eat _) _ steers_readParameter).bind
      fun _ _ hparameters => (steers_expect _ _).bind fun _ _ _ =>
        (steers_eat .semicolon).yield fun _ _ _ =>
          map_eq_of_forall₂ hparameters)

theorem steers_readMethod :
    Steers (Matching Method.bare) readMethod readMethod :=
  (steers_readType _).bind fun _ _ hresult =>
    (steers_declaredText _).bind fun _ _ _ =>
      (steers_expect _ _).bind fun _ _ _ =>
        steers_readParameters.yield fun _ _ hparameters =>
          congrArg₂ (Method.mk "") hresult hparameters

theorem steers_readCase :
    Steers (Matching UnionCase.bare) readCase readCase :=
  (steers_expectWord (by decide) fun _ _ => rfl).bind fun _ _ _ =>
    (steers_expect _ _).bind fun _ _ _ =>
      (steers_readType _).bind fun _ _ hselector =>
        (steers_expect _ _).bind fun _ _ _ =>
          (steers_expect _ _).bind fun _ _ _ =>
            (steers_readMember _).yield fun _ _ hmember =>
              congrArg₂ (UnionCase.mk · · "") hselector
                (congrArg Member.type hmember)

/-! ## Directives -/

theorem steers_readDefine :
    Steers (Matching Directive.bare) readDefine readDefine :=
  (steers_wordOnLine _).bind fun _ _ _ =>
    (steers_ahead .identifier).branch
      ((steers_wordOnLine _).yield fun _ _ _ => rfl)
      (pairs_pure rfl)

theorem steers_readInclude :
    Steers (Matching Directive.bare) readInclude readInclude :=
  (steers_textOnLine _ _).bind fun _ _ _ =>
    steers_nextLine.yield fun _ _ _ => rfl

theorem steers_readDirective :
    Steers (Matching Directive.bare) readDirective readDirective := by
  rw [Composed.readDirective_eq]
  refine (steers_eatWord (by decide)).branch steers_readDefine <|
    (steers_eatWord (by decide)).branch steers_readInclude <|
      steers_refuse _ fun t u h => ?_
  rw [noDirective, noDirective, ← h.kind]
  split <;> rfl

/-! ## Statements in a scope -/

theorem steers_keywordStatement (scope : ScopeKind)
    (keywords : List Keyword) :
    Steers (Matching Statement.bare) (keywordStatement scope keywords)
      (keywordStatement scope keywords) := by
  induction keywords with
  | nil => exact steers_refuse _ fun _ _ _ => rfl
  | cons keyword keywords ih =>
      exact (steers_eatWord (keyword_mem_steeringWords keyword)).branch
        (steers_keyword_statement keyword) ih

theorem steers_wordStatement (scope : ScopeKind) :
    Steers (Matching Statement.bare) (wordStatement scope)
      (wordStatement scope) := by
  cases scope with
  | global => exact steers_keywordStatement _ _
  | module => exact steers_keywordStatement _ _
  | struct =>
      exact (steers_readMember _).map fun _ _ h =>
        congrArg Statement.member h
  | enum => exact steers_readEnumerator.map fun _ _ _ => rfl
  | interface =>
      exact steers_readMethod.map fun _ _ h => congrArg Statement.method h
  | union =>
      exact steers_readCase.map fun _ _ h => congrArg Statement.unionCase h

theorem steers_closeOrSkip (scope : ScopeKind) :
    Steers (Matching Statement.bare) (closeOrSkip scope)
      (closeOrSkip scope) := by
  have hskip : Steers (Matching Statement.bare)
      (do takeAny; return .skip) (do takeAny; return .skip) :=
    steers_takeAny.yield fun _ _ _ => rfl
  unfold closeOrSkip
  split
  · exact (steers_ahead _).branch (steers_refuse _ fun _ _ _ => rfl) hskip
  · exact (steers_eat _).branch (pairs_pure rfl) hskip

/-- The statement in front is read the same way on both streams. -/
theorem steers_nextStatement (scope : ScopeKind) :
    Steers (Matching Statement.bare) (nextStatement scope)
      (nextStatement scope) := by
  rw [Composed.nextStatement_eq]
  exact (steers_eat .hash).branch
    (steers_readDirective.map fun _ _ h => congrArg Statement.directive h)
    ((steers_ahead .identifier).branch (steers_wordStatement scope)
      (steers_closeOrSkip scope))

end Idl
