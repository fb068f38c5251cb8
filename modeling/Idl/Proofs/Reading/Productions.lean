import Idl.Proofs.Reading.Parts

/-!
# Every production can be completed

For each reading of the grammar: the tokens it would continue with where the
stream has ended, and how many tokens complete it.  Of these a type needs two
for every template that is open, since what stands behind the arguments may
have to be a word; each such template has taken two tokens itself.  No fewer
will do: a constant whose type is `unsigned < unsigned < …` needs as many tokens
as it has, and four more.

A statement may open a scope, and then the brace that closes it counts as well.
What is needed in a scope (`room`) is so much that it is never exceeded by
reading one more statement.
-/

namespace Idl

/-! ## Names -/

theorem completes_moreSegments (production : Production) :
    Completes [.namespaces] 1 0 0 (moreSegments production) :=
  completes_followed (by decide) _ (completes_word production)

theorem completes_arraySize (production : Production) :
    Completes [.openSquare] 2 0 0 (arraySize production) := by
  have hsize : Completes [] 1 0 2 (do
      let quantity ← word production
      expect .closeSquare production
      return some quantity) :=
    (completes_word production).seq fun quantity =>
      (completes_expect (by decide) production).result fun _ => some quantity
  have hnone : Completes [.openSquare] 0 0 0
      (pure none : Reading (Option String)) :=
    (completes_pure none).mono (by decide)
  have hline : TokenKind.openSquare ≠ .endLine := by decide
  exact hsize.eat_choice hline hnone (List.nil_subset _)
    (.idle rfl (List.Subset.refl _))

theorem completes_declarator (production : Production) :
    Completes [.namespaces, .openSquare] 2 0 1 (declarator production) :=
  (completes_word production).seq fun _ =>
    (completes_moreSegments production).idle
      (fun _ => (completes_arraySize production).result _) fun _ => ⟨_, rfl⟩

theorem completes_declaredText (production : Production) :
    Completes [.namespaces, .openSquare] 2 0 1 (declaredText production) :=
  (completes_declarator production).result Declarator.text

theorem completes_declaredTexts (production : Production) :
    Completes [.comma, .namespaces, .openSquare] 2 0 1
      (declaredTexts production) :=
  completes_separated (by decide) _ (completes_declaredText production)

/-! ## Types -/

theorem completes_withSign (production : Production) (first : String) :
    Completes [] 0 0 1 (withSign production first) := by
  unfold withSign
  split
  · exact (completes_word production).result _
  · exact (completes_pure first).mono (by decide)

theorem completes_withLength (name : String) :
    Completes [] 0 0 0 (withLength name) := by
  unfold withLength
  split
  · have hchoice : ∀ found : Bool, Completes [] 0 0 0
        (if found = true then pure (name ++ " long") else pure name :
          Reading String) := by
      intro found
      cases found with
      | true => exact completes_pure _
      | false => exact completes_pure _
    exact completes_eatWord_long.seq hchoice
  · exact completes_pure name

theorem completes_typeName (production : Production) (first : String) :
    Completes [.namespaces] 1 0 1 (typeName production first) :=
  (completes_withSign production first).seq fun signed =>
    (completes_withLength signed).seq fun _ =>
      (completes_moreSegments production).result _

/-- Without a sign a type needs nothing behind its first word. -/
theorem typeName_nil_of_ne (production : Production) {first : String}
    (hfirst : first ≠ "unsigned") :
    ∃ name, typeName production first [] = .ok (name, []) := by
  have hsign : withSign production first = pure first := if_neg hfirst
  have hlength : ∃ name, withLength first [] = .ok (name, []) := by
    unfold withLength
    split <;> exact ⟨_, rfl⟩
  rcases hlength with ⟨name, hname⟩
  refine ⟨qualified name [], ?_⟩
  rw [typeName, hsign, pure_bind, reading_bind_eq_of_ok hname,
    moreSegments, reading_bind_eq_of_ok (followed_nil _)]
  rfl

theorem typeName_nil (production : Production) (first : String) :
    typeName production first [] = .error ⟨.endOfInput .identifier, []⟩ ∨
      ∃ name, typeName production first [] = .ok (name, []) := by
  by_cases hfirst : first = "unsigned"
  · subst hfirst
    exact .inl rfl
  · exact .inr (typeName_nil_of_ne production hfirst)

def typeFrom (production : Production) (first : String) : Reading TypeRef := do
  let arguments ← (do if ← eat .less then readArguments else return [])
  let name ← typeName production first
  return ⟨name, none, arguments⟩

theorem composed_typeFrom (production : Production) (first : String) :
    Composed (typeFrom production first) :=
  ((Composed.eat (by decide)).bind fun _ =>
    Composed.readArguments.choice (.pure [])).bind fun _ =>
      (Composed.typeName production first).bind fun _ => .pure _

theorem completesAt_typeFrom {production : Production} {first : String}
    {n m : Nat} {ts : List Token}
    (hinner : ∀ mid, mid.length < ts.length →
      CompletesAt [] n readArguments mid) (hle : n + 1 ≤ m) :
    CompletesAt [.less, .namespaces] m (typeFrom production first) ts := by
  have hname := completes_typeName production first
  have hcomposed : Composed (do
      if ← eat .less then readArguments else return [] :
      Reading (List TypeRef)) :=
    (Composed.eat (by decide)).bind fun _ =>
      Composed.readArguments.choice (.pure [])
  have hchoice : CompletesAt [.less] n (do
      if ← eat .less then readArguments else return [] :
      Reading (List TypeRef)) ts :=
    .eat_choice Composed.readArguments
      (fun mid hmid => (hinner mid hmid).mono (by simp) (Nat.le_refl n))
      (completesAt_pure []) fun _ => .idle rfl (List.Subset.refl _)
  refine hchoice.bind hcomposed.isLocal (fun arguments mid _ => ?_)
    (fun _ _ arguments => hname.fresh.result _) (fun arguments _ => ?_)
    (List.subset_cons_self _ _) hle
  · have hone : 1 ≤ m := by omega
    exact (hname.anywhere hone hone).result _
  · obtain hneeds | ⟨name, hdone⟩ := typeName_nil production first
    · exact .demand (reading_bind_eq_of_error hneeds) (by decide)
    · exact .idle (reading_bind_eq_of_ok hdone) (by simp)

/-- A type that is missing altogether is a word without a sign. -/
theorem completesAt_readType_nil (production : Production) :
    CompletesAt [.less, .namespaces] 1 (readType production) [] := by
  have hnil : readType production [] = .error ⟨.endOfInput .identifier, []⟩ := by
    rw [readType_eq]
    exact reading_bind_eq_of_error rfl
  obtain ⟨name, hname⟩ := typeName_nil_of_ne production
    (show "x" ≠ "unsigned" by decide)
  have hless : eat .less [] = .ok (false, []) := rfl
  constructor
  · intro x h
    rw [hnil] at h
    cases h
  · intro kind h
    rw [hnil] at h
    cases h
    refine ⟨⟨.identifier, "x", .point 0⟩, [], ⟨name, none, []⟩, rfl,
      ⟨by simp, by simp, rfl⟩, Nat.le_refl 1, fun vs hvs => ?_⟩
    have hword : word production (⟨.identifier, "x", .point 0⟩ :: vs) =
        .ok ("x", vs) := by
      have hlines : word production (⟨.identifier, "x", .point 0⟩ :: vs) =
          .ok ("x", skipLines vs) := rfl
      rw [hlines, skipLines_of_stopped hvs]
    have hnone := (completes_eat (by decide)).fresh.ended hless vs
      (hvs.mono (by simp))
    have hrest := (completes_typeName production "x").fresh.ended hname vs
      (hvs.mono (by simp))
    rw [List.nil_append] at hnone hrest
    rw [List.nil_append, List.nil_append, readType_eq,
      reading_bind_eq_of_ok hword, bind_assoc, reading_bind_eq_of_ok hnone]
    simp only [Bool.false_eq_true, if_false, pure_bind]
    exact reading_bind_eq_of_ok hrest

theorem completesAt_readType (production : Production) {ts : List Token}
    (hinner : ∀ mid, mid.length < ts.length →
      CompletesAt [] (2 * (mid.length / 2) + 2) readArguments mid) :
    CompletesAt [.less, .namespaces] (2 * (ts.length / 2) + 1)
      (readType production) ts := by
  cases ts with
  | nil => exact completesAt_readType_nil production
  | cons t ts =>
      have hword := completes_word production
      have hle : needs 0 0 (t :: ts).length + 1 ≤
          2 * ((t :: ts).length / 2) + 1 :=
        Nat.succ_le_succ (Nat.zero_le _)
      rw [readType_eq]
      refine (hword.general t ts).bind hword.composed.isLocal
        (fun first mid hfirst => ?_) (fun _ _ first => ?_) (fun first _ => ?_)
        (List.Subset.refl _) hle
      · have hmid := consumes_word production (t :: ts) first mid hfirst
        refine completesAt_typeFrom (fun inner hlt => ?_) (Nat.le_refl _)
        exact (hinner inner (by omega)).mono (List.Subset.refl _) (by omega)
      · refine completesAt_typeFrom (fun inner hlt => ?_) (Nat.le_refl 1)
        exact absurd hlt (Nat.not_lt_zero _)
      · exact meets_nil (composed_typeFrom production first)

def argumentsBehind (argument : TypeRef) : Reading (List TypeRef) := do
  if ← eat .comma then
    let arguments ← readArguments
    return argument :: arguments
  else
    expect .greater .templateArguments
    return [argument]

theorem completesAt_argumentsBehind {argument : TypeRef} {n : Nat}
    {ts : List Token}
    (hinner : ∀ mid, mid.length < ts.length →
      CompletesAt [] n readArguments mid) (hone : 1 ≤ n) :
    CompletesAt [] n (argumentsBehind argument) ts := by
  have hclose : Completes [] 0 0 1 (do
      expect .greater .templateArguments
      return [argument]) :=
    (completes_expect (by decide) _).result fun _ => [argument]
  have hmore : Composed (do
      let arguments ← readArguments
      return argument :: arguments) :=
    Composed.readArguments.bind fun _ => .pure _
  refine .eat_choice hmore (fun mid hmid => (hinner mid hmid).result _)
    (hclose.anywhere hone (Nat.zero_le n)) fun _ => ?_
  exact .demand rfl (by decide)

theorem completesAt_readArguments {ts : List Token}
    (htype : CompletesAt [.less, .namespaces] (2 * (ts.length / 2) + 1)
      (readType .templateArguments) ts)
    (hinner : ∀ mid, mid.length < ts.length →
      CompletesAt [] (2 * (mid.length / 2) + 2) readArguments mid) :
    CompletesAt [] (2 * (ts.length / 2) + 2) readArguments ts := by
  have hlocal := (Composed.readType .templateArguments).isLocal
  rw [readArguments_eq]
  refine htype.bind hlocal (fun argument mid hargument => ?_)
    (fun _ _ argument => ?_) (fun argument _ => ?_) (List.Subset.refl _)
    (Nat.le_refl (2 * (ts.length / 2) + 1 + 1))
  · have hmid := consumes_readType _ ts argument mid hargument
    refine completesAt_argumentsBehind (fun inner hlt => ?_) (by omega)
    exact (hinner inner (by omega)).mono (List.Subset.refl _) (by omega)
  · refine completesAt_argumentsBehind (fun inner hlt => ?_) (Nat.le_refl 1)
    exact absurd hlt (Nat.not_lt_zero _)
  · exact .demand rfl (by decide)

theorem completesAt_types (ts : List Token) :
    (∀ production, CompletesAt [.less, .namespaces] (2 * (ts.length / 2) + 1)
      (readType production) ts) ∧
    CompletesAt [] (2 * (ts.length / 2) + 2) readArguments ts := by
  induction hlength : ts.length using Nat.strongRecOn generalizing ts with
  | ind n ih =>
      subst hlength
      have hinner : ∀ mid : List Token, mid.length < ts.length →
          CompletesAt [] (2 * (mid.length / 2) + 2) readArguments mid :=
        fun mid hmid => (ih mid.length hmid mid rfl).2
      have htype := fun production => completesAt_readType production hinner
      exact ⟨htype, completesAt_readArguments (htype _) hinner⟩

theorem completes_readType (production : Production) :
    Completes [.less, .namespaces] 0 1 1 (readType production) where
  composed := .readType production
  general t ts := ((completesAt_types (t :: ts)).1 production).mono
    (List.Subset.refl _) (Nat.le_max_right _ _)
  fresh := completesAt_readType_nil production

/-! ## Declarations -/

/-- The place of a heading is that of its first token, which a stream that has
ended does not have yet. -/
theorem completes_heading (production : Production) :
    Completes [.namespaces, .openSquare] 2 0 1 (heading production) := by
  have htext := completes_declaredText production
  have hsite : ∀ site : Span, Completes [.namespaces, .openSquare] 2 0 1
      (declaredText production >>= fun name =>
        pure (⟨name, site⟩ : Heading)) := fun site => htext.result _
  have hcons : ∀ (t : Token) (ts : List Token),
      heading production (t :: ts) = (declaredText production >>= fun name =>
        pure (⟨name, t.span⟩ : Heading)) (t :: ts) := fun t ts => rfl
  have hfresh : CompletesAt [.namespaces, .openSquare] 1
      (heading production) [] := by
    constructor
    · intro x h
      cases h
    · intro kind h
      have hword : heading production [] =
          .error ⟨.endOfInput .identifier, []⟩ := rfl
      have hneeds : declaredText production [] =
          .error ⟨.endOfInput .identifier, []⟩ := rfl
      rw [hword] at h
      cases h
      obtain ⟨t, us, name, hkind, hstops, hlength, hread⟩ :=
        htext.fresh.completed hneeds
      refine ⟨t, us, ⟨name, t.span⟩, hkind, hstops, hlength, fun vs hvs => ?_⟩
      rw [List.nil_append, hcons]
      exact reading_bind_eq_of_ok (hread vs hvs)
  refine ⟨.heading production, fun t ts => ?_, hfresh⟩
  have hchain := (hsite t.span).general t ts
  apply hchain.congr
  intro vs
  rw [List.cons_append, hcons]

theorem completes_heading_openBrace (production : Production)
    (opened : Heading → Statement) :
    Completes [] 3 0 2 (do
      let h ← heading production
      expect .openBrace production
      return opened h) :=
  (completes_heading production).demand
    (fun h => (completes_expect (by decide) production).result fun _ =>
      opened h) fun _ => ⟨_, rfl, by decide⟩

theorem completes_readMember (production : Production) :
    Completes [] 3 3 3 (readMember production) :=
  (completes_readType production).demand
    (fun type => (completes_declarator production).demand
      (fun declared => (completes_expect (by decide) production).result
        fun _ => (⟨declared.name, declared.bind type⟩ : Member))
      fun _ => ⟨_, rfl, by decide⟩)
    fun _ => ⟨_, rfl, by decide⟩

theorem completes_readConstant : Completes [] 5 5 5 readConstant := by
  have hvalue : ∀ (type : TypeRef) (declared : Declarator),
      Completes [] 1 0 2 (do
        let value ← constantValue
        expect .semicolon .constant
        return (⟨declared.name, declared.bind type, value⟩ : Constant)) :=
    fun type declared => completes_constantValue.demand
      (fun value => (completes_expect (by decide) .constant).result _)
      fun _ => ⟨_, rfl, by decide⟩
  exact (completes_readType .constant).demand
    (fun type => (completes_declarator .constant).demand
      (fun declared => (completes_expect (by decide) .constant).seq
        fun _ => hvalue type declared)
      fun _ => ⟨_, rfl, by decide⟩)
    fun _ => ⟨_, rfl, by decide⟩

theorem completes_readStruct : Completes [] 3 0 2 readStruct := by
  have hnone : Completes [.colon] 0 0 0 (pure [] : Reading (List String)) :=
    (completes_pure []).mono (by decide)
  have hbases : Completes [.colon, .comma, .namespaces, .openSquare] 2 0 0 (do
      if ← eat .colon then declaredTexts .structBases else return [] :
      Reading (List String)) := by
    have hline : TokenKind.colon ≠ .endLine := by decide
    refine (completes_declaredTexts .structBases).eat_choice hline
      (hnone.mono ⟨?_, Nat.le_refl _, Nat.le_refl _, Nat.le_refl _⟩) ?_
      (.idle rfl ?_) <;> simp
  exact (completes_heading .structHeader).bind
    (fun h => hbases.demand
      (fun bases => (completes_expect (by decide) .structHeader).result fun _ =>
        Statement.openStruct h.name bases h.site)
      fun _ => ⟨_, rfl, by decide⟩)
    (fun h => .demand rfl (by decide)) (List.Subset.refl _)

theorem completes_interfaceBases : Completes [] 3 0 2 interfaceBases :=
  (completes_declaredTexts .interfaceBases).demand
    (fun bases => (completes_expect (by decide) .interfaceBases).result
      fun _ => bases)
    fun _ => ⟨_, rfl, by decide⟩

def interfaceFrom (h : Heading) : Reading Statement := do
  if ← eat .semicolon then
    return .declare (.interface ⟨h.name, [], []⟩)
  else if ← eat .openBrace then
    return .openInterface h.name [] h.site
  else if ← eat .colon then
    let bases ← interfaceBases
    return .openInterface h.name bases h.site
  else
    invalidInterface

theorem composed_interfaceFrom (h : Heading) : Composed (interfaceFrom h) :=
  (Composed.eat (by decide)).bind fun _ => (Composed.pure _).choice
    ((Composed.eat (by decide)).bind fun _ => (Composed.pure _).choice
      ((Composed.eat (by decide)).bind fun _ =>
        (Composed.interfaceBases.bind fun _ => .pure _).choice
          .invalidInterface))

/-- Of the tokens that may stand behind the heading of an interface, the one
that is asked for opens its scope. -/
theorem completes_interfaceFrom (h : Heading) :
    Completes [] 3 0 1 (interfaceFrom h) := by
  have hfresh : CompletesAt [] 1 (interfaceFrom h) [] := by
    constructor
    · intro x hx
      cases hx
    · intro kind hx
      cases hx
      refine ⟨⟨.openBrace, "", .point 0⟩, [], .openInterface h.name [] h.site,
        rfl, ⟨by simp, by simp, rfl⟩, Nat.le_refl _, fun vs hvs => ?_⟩
      rw [List.nil_append, List.nil_append, interfaceFrom,
        Composed.eat_choice_cons, if_neg (by simp), Composed.eat_choice_cons,
        if_pos rfl, skipLines_of_stopped hvs]
      rfl
  refine ⟨composed_interfaceFrom h, fun t ts => ?_, hfresh⟩
  have hne : t :: ts ≠ [] := List.cons_ne_nil t ts
  have hbases : Completes [] 3 0 2 (do
      let bases ← interfaceBases
      return Statement.openInterface h.name bases h.site) :=
    completes_interfaceBases.result _
  have hinvalid : CompletesAt [] 3 invalidInterface (t :: ts) := by
    apply completesAt_of_error rfl
    unfold Failure.mismatch
    split
    next => contradiction
    next => split <;> exact hne
  rw [needs_zero]
  exact .eat_choice (.pure _) (fun _ _ => completesAt_pure _)
    (.eat_choice (.pure _) (fun _ _ => completesAt_pure _)
      (.eat_choice hbases.composed
        (fun mid _ => hbases.anywhere (by decide) (Nat.le_refl 3)) hinvalid
        fun h => absurd h hne)
      fun h => absurd h hne)
    fun h => absurd h hne

theorem completes_readInterface : Completes [] 3 0 2 readInterface :=
  (completes_heading .interfaceHeader).demand completes_interfaceFrom
    fun _ => ⟨_, rfl, by decide⟩

theorem completes_readUnion : Completes [] 7 3 6 readUnion := by
  have hswitch : Completes [] 0 0 1 (expectWord "switch" .expectedSwitch) :=
    completes_expectWord (by decide) fun _ => trivial
  have hround : ∀ kind, kind ≠ .endLine → Completes [] 0 0 1
      (expect kind .unionDiscriminant) := fun kind hline =>
    completes_expect hline .unionDiscriminant
  have hopen : ∀ (h : Heading) (type : TypeRef), Completes [] 1 0 2 (do
      expect .closeRound .unionDiscriminant
      expect .openBrace .unionDiscriminant
      return Statement.openUnion h.name type h.site) := fun h type =>
    (hround .closeRound (by decide)).seq fun _ =>
      (hround .openBrace (by decide)).result _
  exact (completes_heading .unionHeader).demand
    (fun h => hswitch.seq fun _ => (hround .openRound (by decide)).seq fun _ =>
      (completes_readType .unionDiscriminant).demand (hopen h)
        fun _ => ⟨_, rfl, by decide⟩)
    fun _ => ⟨_, rfl, by decide⟩

theorem completes_keyword_statement {keyword : Keyword}
    (hconst : keyword ≠ .const) : Completes [] 7 3 6 keyword.statement := by
  cases keyword with
  | module =>
      exact (completes_heading_openBrace .moduleName _).mono (by decide)
  | typedef =>
      exact ((completes_readMember .typedef).result _).mono (by decide)
  | struct => exact completes_readStruct.mono (by decide)
  | const => exact absurd rfl hconst
  | enum => exact (completes_heading_openBrace .enumHeader _).mono (by decide)
  | interface => exact completes_readInterface.mono (by decide)
  | union => exact completes_readUnion

/-! ## Entries -/

theorem completes_readEnumerator : Completes [.comma] 0 0 1 readEnumerator :=
  (completes_word .enumerator).seq fun name =>
    completes_skipCommas.result fun _ => name

theorem completes_readParameter :
    Completes [.identifier, .less, .namespaces, .openSquare] 2 1 2
      readParameter := by
  have hdeclared : ∀ direction type,
      Completes [.namespaces, .openSquare] 2 0 1 (do
        let declared ← declarator .parameter
        return (⟨direction, declared.bind type, some declared.name⟩ :
          Parameter)) := fun _ _ =>
    (completes_declarator .parameter).result _
  have hplain : ∀ direction type,
      Completes [.identifier, .namespaces, .openSquare] 0 0 0
        (pure ⟨direction, type, none⟩ : Reading Parameter) := fun _ _ =>
    (completes_pure _).mono (by decide)
  have hname : ∀ direction type,
      Completes [.identifier, .namespaces, .openSquare] 2 0 0 (do
        if ← ahead .identifier then
          let declared ← declarator .parameter
          return (⟨direction, declared.bind type, some declared.name⟩ :
            Parameter)
        else
          return ⟨direction, type, none⟩) := fun direction type =>
    (hdeclared direction type).ahead_choice (hplain direction type) (by simp)
      (.idle rfl (by simp))
  have htype : ∀ direction,
      Completes [.identifier, .less, .namespaces, .openSquare] 2 1 1 (do
        let type ← readType .parameter
        if ← ahead .identifier then
          let declared ← declarator .parameter
          return (⟨direction, declared.bind type, some declared.name⟩ :
            Parameter)
        else
          return ⟨direction, type, none⟩) := fun direction =>
    ((completes_readType .parameter).idle (hname direction)
      fun _ => ⟨_, rfl⟩).mono (by decide)
  exact completes_readDirection.seq htype

/-- The semicolon behind the parameters need not come. -/
theorem completes_readParameters :
    Completes [.semicolon] 3 2 3 readParameters := by
  have hclosed : Completes [.semicolon] 0 0 1 (do
      expect .semicolon .method
      return ([] : List Parameter)) :=
    ((completes_expect (by decide) .method).result _).mono (by decide)
  have hlast : ∀ parameters : List Parameter, Completes [.semicolon] 0 0 1 (do
      expect .closeRound .parameter
      let _ ← eat .semicolon
      return parameters) := fun parameters =>
    (completes_expect (by decide) .parameter).seq fun _ =>
      (completes_eat (by decide)).result fun _ => parameters
  have hsome : Completes [.semicolon] 3 2 3 (do
      let parameters ← separated .comma readParameter consumes_readParameter
      expect .closeRound .parameter
      let _ ← eat .semicolon
      return parameters) :=
    (completes_separated (by decide) consumes_readParameter
      completes_readParameter).demand hlast fun _ => ⟨_, rfl, by decide⟩
  have hline : TokenKind.closeRound ≠ .endLine := by decide
  exact hclosed.eat_choice hline hsome (List.Subset.refl _)
    (.demand rfl (by decide))

theorem completes_readMethod : Completes [.semicolon] 6 6 6 readMethod :=
  (completes_readType .method).demand
    (fun _ => (completes_declaredText .method).demand
      (fun _ => (completes_expect (by decide) .method).seq fun _ =>
        completes_readParameters.result _)
      fun _ => ⟨_, rfl, by decide⟩)
    fun _ => ⟨_, rfl, by decide⟩

theorem completes_readCase : Completes [] 7 6 8 readCase := by
  have hcase : Completes [] 0 0 1 (expectWord "case" .expectedCase) :=
    completes_expectWord (by decide) fun _ => trivial
  have hmark : ∀ kind, kind ≠ .endLine → Completes [] 0 0 1
      (expect kind .unionCase) := fun kind hline =>
    completes_expect hline .unionCase
  have hmember : ∀ selector : TypeRef, Completes [] 4 3 5 (do
      expect .closeRound .unionCase
      expect .colon .unionCase
      let member ← readMember .unionCase
      return (⟨selector, member.type, member.name⟩ : UnionCase)) :=
    fun _ => (hmark .closeRound (by decide)).seq fun _ =>
      (hmark .colon (by decide)).seq fun _ =>
        (completes_readMember .unionCase).result _
  exact hcase.seq fun _ => (hmark .openRound (by decide)).seq fun _ =>
    (completes_readType .unionCase).demand hmember
      fun _ => ⟨_, rfl, by decide⟩

/-! ## Directives -/

theorem completes_readDefine : Completes [.identifier] 0 0 1 readDefine := by
  have hvalue : ∀ name, Completes [.identifier] 0 0 0 (do
      if ← ahead .identifier then
        let value ← wordOnLine .directive
        return Directive.define name (some value)
      else
        return .define name none) := by
    intro name
    have hgiven : Completes [] 0 0 1 (do
        let value ← wordOnLine .directive
        return Directive.define name (some value)) :=
      (completes_textOnLine (by decide) .directive).result _
    have hnone : Completes [.identifier] 0 0 0
        (pure (.define name none) : Reading Directive) :=
      (completes_pure _).mono (by decide)
    exact hgiven.ahead_choice hnone (by simp) (.idle rfl (by simp))
  exact (completes_textOnLine (by decide) .directive).seq hvalue

theorem completes_readInclude : Completes [] 0 0 1 readInclude :=
  (completes_textOnLine (by decide) .directive).seq fun path =>
    completes_nextLine.result fun _ => Directive.include path

theorem completes_readDirective :
    Completes [.identifier] 1 0 2 readDirective := by
  have hdefine := completes_readDefine
  have hinclude := completes_readInclude
  have hfresh : CompletesAt [.identifier] 2 readDirective [] := by
    constructor
    · intro x hx
      cases hx
    · intro kind hx
      cases hx
      obtain ⟨t, us, d, -, hstops, hlength, hread⟩ :=
        hdefine.fresh.completed rfl
      have hlines : ∀ vs, skipLines (t :: vs) = t :: vs := fun vs =>
        skipLines_of_stopped (stopped_cons hstops (List.not_mem_nil))
      refine ⟨⟨.identifier, "define", .point 0⟩, t :: us, d, rfl,
        ⟨by simp, by simp, rfl⟩, Nat.succ_le_succ hlength, fun vs hvs => ?_⟩
      rw [List.nil_append, List.cons_append, Composed.readDirective_eq,
        Composed.eatWord_choice_cons, if_pos (by simp [Token.isWord]), hlines]
      exact hread vs hvs
  refine ⟨.readDirective, fun t ts => ?_, hfresh⟩
  have hunknown : CompletesAt [.identifier] 1
      (refuse .identifier noDirective : Reading Directive) (t :: ts) :=
    completesAt_of_error rfl (List.cons_ne_nil t ts)
  rw [Composed.readDirective_eq, needs_zero]
  exact .eatWord_choice .readDefine
    (fun _ mid _ => hdefine.anywhere (Nat.le_refl 1) (Nat.zero_le 1))
    (.eatWord_choice .readInclude
      (fun _ mid _ => (hinclude.anywhere (Nat.le_refl 1) (Nat.zero_le 1)).mono
        (List.nil_subset _) (Nat.le_refl 1)) hunknown)

/-! ## Statements -/

/-- How many tokens are enough to complete a statement in a scope, and to close
the scope that it may open, where so many tokens are left. -/
def room (scope : ScopeKind) (n : Nat) : Nat :=
  if scope = .global ∨ scope = .module then
    max (2 * ((n + 1) / 2) + 3) ((n + 1) / 3 + 7)
  else max (2 * (n / 2) + 6) 7

/-- The brace that is kept for the scope which a statement that starts with the
token may open. -/
def opening (scope : ScopeKind) (t : Token) : Nat :=
  if (scope = .global ∨ scope = .module) ∧ t.isWord "const" = false then 1
  else 0

theorem opening_le_one (scope : ScopeKind) (t : Token) :
    opening scope t ≤ 1 := by
  unfold opening
  split <;> omega

theorem seven_le_room (scope : ScopeKind) (n : Nat) : 7 ≤ room scope n := by
  unfold room
  split <;> omega

section
variable {scope : ScopeKind} {t : Token} {ts : List Token} {n : Nat}

theorem completesAt_keywordStatement
    (h : ∀ keyword : Keyword, t.isWord keyword.word → ∀ mid : List Token,
      mid.length ≤ ts.length → CompletesAt [] n keyword.statement mid)
    (keywords : List Keyword) :
    CompletesAt [] n (keywordStatement scope keywords) (t :: ts) := by
  induction keywords with
  | nil => exact completesAt_of_error rfl (List.cons_ne_nil t ts)
  | cons keyword keywords ih =>
      exact .eatWord_choice (.keyword_statement keyword) (h keyword) ih

/-- A constant needs most, but it opens no scope. -/
theorem completesAt_keyword (hscope : scope = .global ∨ scope = .module)
    {keyword : Keyword} (hword : t.isWord keyword.word) {mid : List Token}
    (hmid : mid.length ≤ ts.length) :
    CompletesAt [] (room scope (t :: ts).length - opening scope t)
      keyword.statement mid := by
  have hle := opening_le_one scope t
  have hroom : room scope (t :: ts).length = max
      (2 * ((ts.length + 2) / 2) + 3) ((ts.length + 2) / 3 + 7) :=
    if_pos hscope
  by_cases hconst : keyword = .const
  · subst hconst
    have hnone : opening scope t = 0 :=
      if_neg fun h => by simp [Keyword.word, h.2] at hword
    have hconstant : Completes [] 5 5 5 Keyword.const.statement :=
      completes_readConstant.result _
    rw [hnone, hroom]
    exact hconstant.anywhere (by omega) (by
      rw [needs_of_pos (by decide)]
      omega)
  · have hother := completes_keyword_statement hconst
    cases mid with
    | nil => exact hother.fresh.mono (List.Subset.refl _) (by omega)
    | cons u us =>
        rw [List.length_cons] at hmid
        refine (hother.general u us).mono (List.Subset.refl _) ?_
        rw [needs_of_pos (by decide), List.length_cons]
        omega

theorem completesAt_wordStatement (scope : ScopeKind) (t : Token)
    (ts : List Token) :
    CompletesAt [.comma, .semicolon]
      (room scope (t :: ts).length - opening scope t) (wordStatement scope)
      (t :: ts) := by
  have hfills : ∀ {kinds : List TokenKind} {f d e : Nat}
      {r : Reading Statement}, ¬ (scope = .global ∨ scope = .module) →
      kinds ⊆ [.comma, .semicolon] → f ≤ 7 → d ≤ 6 → Completes kinds f d e r →
        CompletesAt [.comma, .semicolon]
          (room scope (t :: ts).length - opening scope t) r (t :: ts) := by
    intro kinds f d e r hscope hsub hf hd hr
    refine (hr.general t ts).mono hsub ?_
    have hnone : opening scope t = 0 := if_neg fun h => hscope h.1
    rw [hnone, room, if_neg hscope, needs]
    split <;> omega
  cases scope with
  | global =>
      exact (completesAt_keywordStatement
        (fun _ hword _ hmid => completesAt_keyword (.inl rfl) hword hmid)
        _).mono (List.nil_subset _) (Nat.le_refl _)
  | module =>
      exact (completesAt_keywordStatement
        (fun _ hword _ hmid => completesAt_keyword (.inr rfl) hword hmid)
        _).mono (List.nil_subset _) (Nat.le_refl _)
  | struct =>
      exact hfills (by decide) (by simp) (by decide) (by decide)
        ((completes_readMember .structMember).map Statement.member)
  | enum =>
      exact hfills (by decide) (by simp) (by decide) (by decide)
        (completes_readEnumerator.map Statement.enumerator)
  | interface =>
      exact hfills (by decide) (by simp) (by decide) (by decide)
        (completes_readMethod.map Statement.method)
  | union =>
      exact hfills (by decide) (by simp) (by decide) (by decide)
        (completes_readCase.map Statement.unionCase)

end

theorem completesAt_closeOrSkip (scope : ScopeKind) (t : Token)
    (ts : List Token) : CompletesAt [] 0 (closeOrSkip scope) (t :: ts) := by
  have hskip : CompletesAt [] 0 (do
      takeAny
      return Statement.skip) (t :: ts) :=
    (completesAt_pure .skip).behind (.pure _) fun vs => rfl
  unfold closeOrSkip
  split
  · have hclose : CompletesAt [] 0
        (refuse .closeBrace fun _ => .unmatchedClose : Reading Statement)
        (t :: ts) := completesAt_of_error rfl (List.cons_ne_nil t ts)
    exact .ahead_choice (fun _ => hclose) hskip fun h => by cases h
  · exact .eat_choice (.pure _) (fun _ _ => completesAt_pure _) hskip
      fun h => by cases h

/-- Every statement can be completed, and a closing brace behind it is never
taken for a part of it. -/
theorem completesAt_nextStatement (scope : ScopeKind) (t : Token)
    (ts : List Token) :
    CompletesAt [.identifier, .comma, .semicolon]
      (room scope (t :: ts).length - opening scope t) (nextStatement scope)
      (t :: ts) := by
  have hdirective := completes_readDirective.map Statement.directive
  have hword := (completesAt_wordStatement scope t ts).mono
    (List.subset_cons_self .identifier _) (Nat.le_refl _)
  have hother : CompletesAt [.identifier, .comma, .semicolon]
      (room scope (t :: ts).length - opening scope t) (closeOrSkip scope)
      (t :: ts) :=
    (completesAt_closeOrSkip scope t ts).mono (List.nil_subset _)
      (Nat.zero_le _)
  have hroom := seven_le_room scope (t :: ts).length
  have hopening := opening_le_one scope t
  rw [Composed.nextStatement_eq]
  refine .eat_choice hdirective.composed (fun mid _ => ?_)
    (.ahead_choice (fun _ => hword) hother fun h => by cases h)
    fun h => by cases h
  exact (hdirective.anywhere (n := 2) (Nat.le_refl 2) (by simp)).mono
    (by simp) (by omega)

end Idl
