import Idl.Proofs.Reading.Basic
import Idl.Statement.Next
import Mathlib.Tactic.Choose

/-!
# How readings are composed

Every reading of the grammar is put together from a few that look at one token
or at a run of tokens.  `Composed` lists these, the ways they are put together,
and the passage to the limit for readings that call themselves: such a reading
is known when on streams of bounded length it agrees with readings that do not.

A property that the parts have, that passes through sequencing and to the limit
therefore holds of every reading, by induction on `Composed`.
-/

namespace Idl

/-! ## Readings that take no decision of their own -/

def refuse {α : Type} (needed : TokenKind) (fault : Token → Fault) :
    Reading α
  | [] => .error ⟨.endOfInput needed, []⟩
  | t :: ts =>
    .error ⟨if t.kind = .endOfInput then .endOfInput needed else fault t,
      t :: ts⟩

def takeAny : Reading Unit := fun ts => .ok ((), skipLines ts.tail)

/-- Neither running out of tokens nor a scope that is left open. -/
def Fault.Conclusive : Fault → Prop
  | endOfInput _ => False
  | unclosedScope _ _ => False
  | _ => True

inductive Composed : {α : Type} → Reading α → Prop where
  | pure {α : Type} (x : α) : Composed (pure x)
  | bind {α β : Type} {r : Reading α} {f : α → Reading β} (hr : Composed r)
      (hf : ∀ x, Composed (f x)) : Composed (r >>= f)
  | textOnLine (kind : TokenKind) (production : Production) :
      Composed (textOnLine kind production)
  | nextLine : Composed nextLine
  | ahead (kind : TokenKind) : Composed (ahead kind)
  | place : Composed place
  | eat {kind : TokenKind} (hline : kind ≠ .endLine) : Composed (eat kind)
  | eatWord (word : String) : Composed (eatWord word)
  | takeAny : Composed takeAny
  | skipCommas : Composed skipCommas
  | constantValue : Composed constantValue
  | refuse {α : Type} (needed : TokenKind) {fault : Token → Fault}
      (hfault : ∀ t, (fault t).Conclusive) :
      Composed (refuse needed fault : Reading α)
  | limit {α : Type} {r : Reading α} {s : Nat → Reading α}
      (hs : ∀ n, Composed (s n))
      (hagree : ∀ n ts, ts.length < n → s n ts = r ts) : Composed r

/-! ## Statements as choices -/

def noDirection (t : Token) : Fault :=
  if t.kind = .identifier then .invalidDirection t.describe
  else .expected .identifier .parameter t.describe

def noDirective (t : Token) : Fault :=
  if t.kind = .identifier then .unknownDirective t.text
  else .expected .identifier .directive t.describe

def keywordStatement (scope : ScopeKind) : List Keyword → Reading Statement
  | [] => refuse .identifier fun t => .unexpectedKeyword t.text scope
  | keyword :: keywords => do
    if ← eatWord keyword.word then
      keyword.statement
    else
      keywordStatement scope keywords

def wordStatement (scope : ScopeKind) : Reading Statement :=
  match scope with
  | .global | .module => keywordStatement scope Keyword.all
  | .struct => Statement.member <$> readMember .structMember
  | .enum => Statement.enumerator <$> readEnumerator
  | .interface => Statement.method <$> readMethod
  | .union => Statement.unionCase <$> readCase

def closeOrSkip (scope : ScopeKind) : Reading Statement :=
  if scope = .global then do
    if ← ahead .closeBrace then
      refuse .closeBrace fun _ => .unmatchedClose
    else
      takeAny
      return .skip
  else do
    if ← eat .closeBrace then
      return .close
    else
      takeAny
      return .skip

/-- Reads the statement in front; there is nothing to do at the end. -/
def nextStatement (scope : ScopeKind) : Reading Statement
  | [] => .ok (.skip, [])
  | t :: ts => readStatement scope t ts

namespace Composed

theorem choice {α : Type} {found : Bool} {r s : Reading α} (hr : Composed r)
    (hs : Composed s) : Composed (if found = true then r else s) := by
  cases found with
  | false => exact hs
  | true => exact hr

theorem of_bounded {α : Type} {r : Reading α}
    (h : ∀ n, ∃ s, Composed s ∧ ∀ ts, ts.length < n → s ts = r ts) :
    Composed r := by
  choose s hs hagree using h
  exact .limit hs hagree

theorem map {α β : Type} {r : Reading α} (h : Composed r) (f : α → β) :
    Composed (f <$> r) := by
  rw [map_eq_pure_bind]
  exact h.bind fun x => .pure (f x)

/-! ## Choices -/

section
variable {α : Type} {r s : Reading α}

theorem eatWord_choice_cons {word : String} {t : Token} {ts : List Token} :
    (do if ← Idl.eatWord word then r else s) (t :: ts) =
      if t.isWord word then r (skipLines ts) else s (t :: ts) := by
  by_cases hword : t.isWord word
  · have hfound : Idl.eatWord word (t :: ts) = .ok (true, skipLines ts) := by
      simp only [Idl.eatWord, eatWord?, if_pos hword]
    rw [reading_bind_eq_of_ok hfound, if_pos hword]
    rfl
  · have hfound : Idl.eatWord word (t :: ts) = .ok (false, t :: ts) := by
      simp only [Idl.eatWord, eatWord?, if_neg hword]
    rw [reading_bind_eq_of_ok hfound, if_neg hword]
    rfl

theorem eat_choice_cons {kind : TokenKind} {t : Token} {ts : List Token} :
    (do if ← Idl.eat kind then r else s) (t :: ts) =
      if t.kind = kind then r (skipLines ts) else s (t :: ts) := by
  by_cases hkind : t.kind = kind
  · have hfound : Idl.eat kind (t :: ts) = .ok (true, skipLines ts) := by
      simp only [Idl.eat, eat?, if_pos hkind]
    rw [reading_bind_eq_of_ok hfound, if_pos hkind]
    rfl
  · have hfound : Idl.eat kind (t :: ts) = .ok (false, t :: ts) := by
      simp only [Idl.eat, eat?, if_neg hkind]
    rw [reading_bind_eq_of_ok hfound, if_neg hkind]
    rfl

theorem ahead_choice_cons {kind : TokenKind} {t : Token} {ts : List Token} :
    (do if ← Idl.ahead kind then r else s) (t :: ts) =
      if t.kind = kind then r (t :: ts) else s (t :: ts) := by
  by_cases hkind : t.kind = kind
  · have hfound : Idl.ahead kind (t :: ts) = .ok (true, t :: ts) := by
      simp [Idl.ahead, hkind]
    rw [reading_bind_eq_of_ok hfound, if_pos hkind]
    rfl
  · have hfound : Idl.ahead kind (t :: ts) = .ok (false, t :: ts) := by
      simp [Idl.ahead, hkind]
    rw [reading_bind_eq_of_ok hfound, if_neg hkind]
    rfl

end

/-! ## Single tokens -/

theorem mismatch_eq {α : Type} (needed : TokenKind) (fault : String → Fault)
    (ts : List Token) :
    (.error (.mismatch needed fault ts) : Except Failure (α × List Token)) =
      Idl.refuse needed (fun t => fault t.describe) ts := by
  cases ts with
  | nil => rfl
  | cons t ts =>
      simp only [Failure.mismatch, Idl.refuse]
      split <;> rfl

theorem expect_eq (kind : TokenKind) (production : Production) :
    expect kind production = (do
      if ← Idl.eat kind then
        return ()
      else
        Idl.refuse kind fun t => .expected kind production t.describe) := by
  funext ts
  cases heat : eat? kind ts with
  | none =>
      have hfound : Idl.eat kind ts = .ok (false, ts) := by
        simp only [Idl.eat, heat]
      rw [reading_bind_eq_of_ok hfound, expect, heat]
      exact mismatch_eq kind _ ts
  | some rest =>
      have hfound : Idl.eat kind ts = .ok (true, rest) := by
        simp only [Idl.eat, heat]
      rw [reading_bind_eq_of_ok hfound, expect, heat]
      rfl

theorem expectWord_eq (word : String) (fault : String → Fault) :
    expectWord word fault = (do
      if ← Idl.eatWord word then
        return ()
      else
        Idl.refuse .identifier fun t => fault t.describe) := by
  funext ts
  cases heat : eatWord? word ts with
  | none =>
      have hfound : Idl.eatWord word ts = .ok (false, ts) := by
        simp only [Idl.eatWord, heat]
      rw [reading_bind_eq_of_ok hfound, expectWord, heat]
      exact mismatch_eq .identifier _ ts
  | some rest =>
      have hfound : Idl.eatWord word ts = .ok (true, rest) := by
        simp only [Idl.eatWord, heat]
      rw [reading_bind_eq_of_ok hfound, expectWord, heat]
      rfl

theorem word (production : Production) : Composed (Idl.word production) :=
  (textOnLine _ _).bind fun text => nextLine.bind fun _ => .pure text

theorem expect {kind : TokenKind} (hline : kind ≠ .endLine)
    (production : Production) : Composed (Idl.expect kind production) := by
  rw [expect_eq]
  exact (eat hline).bind fun _ => (Composed.pure ()).choice
    (.refuse kind fun _ => trivial)

theorem expectWord (word : String) {fault : String → Fault}
    (hfault : ∀ found, (fault found).Conclusive) :
    Composed (Idl.expectWord word fault) := by
  rw [expectWord_eq]
  exact (eatWord word).bind fun _ => (Composed.pure ()).choice
    (.refuse .identifier fun t => hfault t.describe)

/-! ## Sequences -/

theorem followed {α : Type} {separator : TokenKind} {item : Reading α}
    (hline : separator ≠ .endLine) (hconsumes : Consumes item)
    (hitem : Composed item) :
    Composed (Idl.followed separator item hconsumes) := by
  refine of_bounded fun n => ?_
  induction n with
  | zero => exact ⟨_, .pure [], fun ts hts => absurd hts (by omega)⟩
  | succ n ih =>
      rcases ih with ⟨s, hs, hagree⟩
      refine ⟨(do
        if ← Idl.eat separator then
          let x ← item
          let xs ← s
          return x :: xs
        else
          return []),
        (eat hline).bind fun _ => (hitem.bind fun x => hs.bind fun xs =>
          .pure (x :: xs)).choice (.pure []), fun ts hts => ?_⟩
      rw [followed_eq]
      refine reading_bind_congr rfl fun found mid hfound => ?_
      have hmid := keeps_eat separator ts found mid hfound
      cases found with
      | false => rfl
      | true =>
          refine reading_bind_congr rfl fun x mid' hx => ?_
          have hmid' := hconsumes mid x mid' hx
          exact reading_bind_congr (hagree mid' (by omega)) fun _ _ _ => rfl

theorem separated {α : Type} {separator : TokenKind} {item : Reading α}
    (hline : separator ≠ .endLine) (hconsumes : Consumes item)
    (hitem : Composed item) :
    Composed (Idl.separated separator item hconsumes) :=
  hitem.bind fun x => (followed hline hconsumes hitem).bind fun xs =>
    .pure (x :: xs)

/-! ## Names -/

theorem moreSegments (production : Production) :
    Composed (Idl.moreSegments production) :=
  followed (by decide) _ (word production)

theorem arraySize (production : Production) :
    Composed (Idl.arraySize production) :=
  (eat (by decide)).bind fun _ => ((word production).bind fun quantity =>
    (expect (by decide) production).bind fun _ =>
      .pure (some quantity)).choice (.pure none)

theorem declarator (production : Production) :
    Composed (Idl.declarator production) :=
  (word production).bind fun _ => (moreSegments production).bind fun _ =>
    (arraySize production).bind fun _ => .pure _

theorem declaredText (production : Production) :
    Composed (Idl.declaredText production) :=
  (declarator production).bind fun _ => .pure _

theorem declaredTexts (production : Production) :
    Composed (Idl.declaredTexts production) :=
  separated (by decide) _ (declaredText production)

/-! ## Types -/

theorem withSign (production : Production) (first : String) :
    Composed (Idl.withSign production first) := by
  unfold Idl.withSign
  split
  · exact (word production).bind fun _ => .pure _
  · exact .pure _

theorem withLength (name : String) : Composed (Idl.withLength name) := by
  unfold Idl.withLength
  split
  · exact (eatWord _).bind fun _ => (Composed.pure _).choice (.pure _)
  · exact .pure _

theorem typeName (production : Production) (first : String) :
    Composed (Idl.typeName production first) :=
  (withSign production first).bind fun signed => (withLength signed).bind
    fun _ => (moreSegments production).bind fun _ => .pure _

/-- Types and arguments are read alike, on streams of bounded length, by
readings that call neither. -/
theorem types_upTo (n : Nat) :
    (∀ production, ∃ s, Composed s ∧
      ∀ ts, ts.length < n → s ts = Idl.readType production ts) ∧
    ∃ s, Composed s ∧ ∀ ts, ts.length < n → s ts = Idl.readArguments ts := by
  induction n with
  | zero =>
      exact ⟨fun production => ⟨_, .pure (.named ""), fun ts hts =>
        absurd hts (by omega)⟩, _, .pure [], fun ts hts => absurd hts (by omega)⟩
  | succ n ih =>
      rcases ih with ⟨-, args, hargs, hagree⟩
      have htype : ∀ production, ∃ s, Composed s ∧
          ∀ ts, ts.length < n + 1 → s ts = Idl.readType production ts := by
        intro production
        refine ⟨(do
          let first ← Idl.word production
          let arguments ← (do
            if ← Idl.eat .less then args else return [])
          let name ← Idl.typeName production first
          return ⟨name, none, arguments⟩),
          (word production).bind fun first =>
            ((eat (by decide)).bind fun _ => hargs.choice (.pure [])).bind
              fun _ => (typeName production first).bind fun _ => .pure _,
          fun ts hts => ?_⟩
        rw [readType_eq]
        refine reading_bind_congr rfl fun first mid hfirst => ?_
        have hmid := consumes_word production ts first mid hfirst
        refine reading_bind_congr ?_ fun _ _ _ => rfl
        refine reading_bind_congr rfl fun found mid' hfound => ?_
        have hmid' := keeps_eat .less mid found mid' hfound
        cases found with
        | false => rfl
        | true => exact hagree mid' (by omega)
      refine ⟨htype, ?_⟩
      obtain ⟨s, hs, hsagree⟩ := htype .templateArguments
      refine ⟨(do
        let argument ← s
        if ← Idl.eat .comma then
          let arguments ← args
          return argument :: arguments
        else
          Idl.expect .greater .templateArguments
          return [argument]),
        hs.bind fun _ => (eat (by decide)).bind fun _ =>
          (hargs.bind fun _ => .pure _).choice
            ((expect (by decide) .templateArguments).bind fun _ => .pure _),
        fun ts hts => ?_⟩
      rw [readArguments_eq]
      refine reading_bind_congr (hsagree ts hts) fun argument mid hmid => ?_
      have hlt := consumes_readType _ ts argument mid hmid
      refine reading_bind_congr rfl fun found mid' hfound => ?_
      have hle := keeps_eat .comma mid found mid' hfound
      cases found with
      | false => rfl
      | true =>
          exact reading_bind_congr (hagree mid' (by omega)) fun _ _ _ => rfl

theorem readType (production : Production) :
    Composed (Idl.readType production) :=
  of_bounded fun n => (types_upTo n).1 production

theorem readArguments : Composed Idl.readArguments :=
  of_bounded fun n => (types_upTo n).2

/-! ## Declarations -/

theorem heading (production : Production) :
    Composed (Idl.heading production) :=
  place.bind fun _ => (declaredText production).bind fun _ => .pure _

theorem readMember (production : Production) :
    Composed (Idl.readMember production) :=
  (readType production).bind fun _ => (declarator production).bind fun _ =>
    (expect (by decide) production).bind fun _ => .pure _

theorem readConstant : Composed Idl.readConstant :=
  (readType _).bind fun _ => (declarator _).bind fun _ =>
    (expect (by decide) _).bind fun _ => constantValue.bind fun _ =>
      (expect (by decide) _).bind fun _ => .pure _

theorem readModule : Composed Idl.readModule :=
  (heading _).bind fun _ => (expect (by decide) _).bind fun _ => .pure _

theorem readStruct : Composed Idl.readStruct :=
  (heading _).bind fun _ => ((eat (by decide)).bind fun _ =>
    (declaredTexts _).choice (.pure [])).bind fun _ =>
      (expect (by decide) _).bind fun _ => .pure _

theorem readEnum : Composed Idl.readEnum :=
  (heading _).bind fun _ => (expect (by decide) _).bind fun _ => .pure _

theorem interfaceBases : Composed Idl.interfaceBases :=
  (declaredTexts _).bind fun _ => (expect (by decide) _).bind fun _ => .pure _

theorem invalidInterface : Composed Idl.invalidInterface := by
  have hrefuse : Idl.invalidInterface = Idl.refuse .openBrace fun t =>
      .invalidInterface t.describe := by
    funext ts
    exact mismatch_eq .openBrace _ ts
  rw [hrefuse]
  exact .refuse .openBrace fun _ => trivial

theorem readInterface : Composed Idl.readInterface :=
  (heading _).bind fun _ => (eat (by decide)).bind fun _ =>
    (Composed.pure _).choice ((eat (by decide)).bind fun _ =>
      (Composed.pure _).choice ((eat (by decide)).bind fun _ =>
        (interfaceBases.bind fun _ => .pure _).choice invalidInterface))

theorem readUnion : Composed Idl.readUnion := by
  have hswitch : Composed (Idl.expectWord "switch" .expectedSwitch) :=
    expectWord "switch" fun _ => trivial
  exact (heading _).bind fun _ => hswitch.bind fun _ =>
    (expect (by decide) _).bind fun _ => (readType _).bind fun _ =>
      (expect (by decide) _).bind fun _ =>
        (expect (by decide) _).bind fun _ => .pure _

theorem keyword_statement (keyword : Keyword) : Composed keyword.statement := by
  cases keyword with
  | module => exact readModule
  | typedef => exact (readMember _).bind fun _ => .pure _
  | struct => exact readStruct
  | const => exact readConstant.bind fun _ => .pure _
  | enum => exact readEnum
  | interface => exact readInterface
  | union => exact readUnion

/-! ## Entries -/

theorem readEnumerator : Composed Idl.readEnumerator :=
  (word _).bind fun _ => skipCommas.bind fun _ => .pure _

theorem readDirection_eq :
    Idl.readDirection = (do
      if ← Idl.eatWord "in" then return .input
      else if ← Idl.eatWord "out" then return .output
      else if ← Idl.eatWord "inout" then return .both
      else Idl.refuse .identifier noDirection) := by
  funext ts
  cases ts with
  | nil => rfl
  | cons t ts =>
      rw [eatWord_choice_cons, eatWord_choice_cons, eatWord_choice_cons]
      rw [Idl.readDirection]
      by_cases hkind : t.kind = .identifier
      · have hword : ∀ w, t.isWord w = (t.text == w) := fun w => by
          simp [Token.isWord, hkind]
        rw [if_pos hkind, hword, hword, hword]
        by_cases hin : t.text = "in"
        · rw [hin]
          rfl
        · by_cases hout : t.text = "out"
          · rw [hout]
            rfl
          · by_cases hboth : t.text = "inout"
            · rw [hboth]
              rfl
            · have hnone : Direction.ofWord? t.text = none := by
                simp [Direction.ofWord?, Direction.word, Ne.symm hin,
                  Ne.symm hout, Ne.symm hboth]
              simp [hnone, hin, hout, hboth, Idl.refuse, noDirection, hkind]
      · by_cases hend : t.kind = .endOfInput
        · simp [Token.isWord, hend, Idl.refuse, Failure.expected,
            Failure.mismatch]
        · simp [Token.isWord, hkind, hend, Idl.refuse, noDirection,
            Failure.expected, Failure.mismatch]

theorem readDirection : Composed Idl.readDirection := by
  rw [readDirection_eq]
  refine (eatWord _).bind fun _ => (Composed.pure _).choice
    ((eatWord _).bind fun _ => (Composed.pure _).choice
      ((eatWord _).bind fun _ => (Composed.pure _).choice
        (.refuse .identifier fun t => ?_)))
  unfold noDirection
  split <;> trivial

theorem readParameter : Composed Idl.readParameter :=
  readDirection.bind fun _ => (readType _).bind fun _ => (ahead _).bind
    fun _ => ((declarator _).bind fun _ => .pure _).choice (.pure _)

theorem readParameters : Composed Idl.readParameters :=
  (eat (by decide)).bind fun _ =>
    ((expect (by decide) _).bind fun _ => .pure _).choice
      ((separated (by decide) _ readParameter).bind fun _ =>
        (expect (by decide) _).bind fun _ =>
          (eat (by decide)).bind fun _ => .pure _)

theorem readMethod : Composed Idl.readMethod :=
  (readType _).bind fun _ => (declaredText _).bind fun _ =>
    (expect (by decide) _).bind fun _ => readParameters.bind fun _ => .pure _

theorem readCase : Composed Idl.readCase := by
  have hcase : Composed (Idl.expectWord "case" .expectedCase) :=
    expectWord "case" fun _ => trivial
  exact hcase.bind fun _ => (expect (by decide) _).bind fun _ =>
    (readType _).bind fun _ => (expect (by decide) _).bind fun _ =>
      (expect (by decide) _).bind fun _ => (readMember _).bind fun _ => .pure _

/-! ## Directives -/

theorem readDefine : Composed Idl.readDefine :=
  (textOnLine _ _).bind fun _ => (ahead _).bind fun _ =>
    ((textOnLine _ _).bind fun _ => .pure _).choice (.pure _)

theorem readInclude : Composed Idl.readInclude :=
  (textOnLine _ _).bind fun _ => nextLine.bind fun _ => .pure _

theorem readDirective_eq :
    Idl.readDirective = (do
      if ← Idl.eatWord "define" then Idl.readDefine
      else if ← Idl.eatWord "include" then Idl.readInclude
      else Idl.refuse .identifier noDirective) := by
  funext ts
  cases ts with
  | nil => rfl
  | cons t ts =>
      rw [eatWord_choice_cons, eatWord_choice_cons, Idl.readDirective]
      by_cases hkind : t.kind = .identifier
      · simp [Token.isWord, hkind, Idl.refuse, noDirective]
      · by_cases hend : t.kind = .endOfInput
        · simp [Token.isWord, hend, Idl.refuse, Failure.expected,
            Failure.mismatch]
        · simp [Token.isWord, hkind, hend, Idl.refuse, noDirective,
            Failure.expected, Failure.mismatch]

theorem readDirective : Composed Idl.readDirective := by
  rw [readDirective_eq]
  refine (eatWord _).bind fun _ => readDefine.choice
    ((eatWord _).bind fun _ => readInclude.choice
      (.refuse .identifier fun t => ?_))
  unfold noDirective
  split <;> trivial

/-! ## Statements -/

theorem keywordStatement_cons (scope : ScopeKind) {t : Token}
    (hkind : t.kind = .identifier) (ts : List Token) (keywords : List Keyword) :
    Idl.keywordStatement scope keywords (t :: ts) =
      match keywords.find? fun k => k.word == t.text with
      | none => .error ⟨.unexpectedKeyword t.text scope, t :: ts⟩
      | some keyword => keyword.statement (skipLines ts) := by
  induction keywords with
  | nil => simp [Idl.keywordStatement, Idl.refuse, hkind]
  | cons k keywords ih =>
      rw [Idl.keywordStatement, eatWord_choice_cons, ih, List.find?_cons]
      by_cases hword : k.word = t.text
      · have hthis : (k.word == t.text) = true := by simpa using hword
        simp [Token.isWord, hkind, ← hword]
      · have hother : (k.word == t.text) = false := by simpa using hword
        have hne : ¬ t.text = k.word := fun h => hword h.symm
        simp [Token.isWord, hkind, hne, hother]

theorem wordStatement_cons (scope : ScopeKind) {t : Token}
    (hkind : t.kind = .identifier) (ts : List Token) :
    Idl.wordStatement scope (t :: ts) = readWordStatement scope t ts := by
  cases scope with
  | global => exact keywordStatement_cons .global hkind ts Keyword.all
  | module => exact keywordStatement_cons .module hkind ts Keyword.all
  | _ => rfl

theorem nextStatement_eq (scope : ScopeKind) :
    Idl.nextStatement scope = (do
      if ← Idl.eat .hash then Statement.directive <$> Idl.readDirective
      else if ← Idl.ahead .identifier then Idl.wordStatement scope
      else Idl.closeOrSkip scope) := by
  funext ts
  cases ts with
  | nil => cases scope <;> rfl
  | cons t ts =>
      rw [eat_choice_cons, ahead_choice_cons, Idl.nextStatement, readStatement]
      split
      next hkind => simp [hkind]
      next hkind => simp [hkind, wordStatement_cons scope hkind]
      next hkind =>
        simp only [hkind, reduceCtorEq, if_false]
        unfold Idl.closeOrSkip
        split
        next hscope =>
          rw [ahead_choice_cons, if_pos hkind]
          simp [Idl.refuse, hkind]
        next hscope =>
          rw [eat_choice_cons, if_pos hkind]
          rfl
      next hhash hword hclose =>
        simp only [if_neg hhash, if_neg hword]
        unfold Idl.closeOrSkip
        split
        next hscope =>
          rw [ahead_choice_cons, if_neg hclose]
          rfl
        next hscope =>
          rw [eat_choice_cons, if_neg hclose]
          rfl

theorem keywordStatement {scope : ScopeKind} (keywords : List Keyword) :
    Composed (Idl.keywordStatement scope keywords) := by
  induction keywords with
  | nil => exact .refuse _ fun _ => trivial
  | cons keyword keywords ih =>
      exact (eatWord _).bind fun _ => (keyword_statement keyword).choice ih

theorem wordStatement (scope : ScopeKind) :
    Composed (Idl.wordStatement scope) := by
  cases scope with
  | global => exact keywordStatement Keyword.all
  | module => exact keywordStatement Keyword.all
  | struct => exact (readMember _).map _
  | enum => exact readEnumerator.map _
  | interface => exact readMethod.map _
  | union => exact readCase.map _

theorem closeOrSkip (scope : ScopeKind) :
    Composed (Idl.closeOrSkip scope) := by
  unfold Idl.closeOrSkip
  split
  · have hrefuse : Composed (Idl.refuse .closeBrace fun _ => .unmatchedClose :
        Reading Statement) := .refuse _ fun _ => trivial
    exact (ahead _).bind fun _ => hrefuse.choice
      (takeAny.bind fun _ => .pure _)
  · exact (eat (by decide)).bind fun _ => (Composed.pure _).choice
      (takeAny.bind fun _ => .pure _)

theorem nextStatement (scope : ScopeKind) :
    Composed (Idl.nextStatement scope) := by
  rw [nextStatement_eq]
  exact (eat (by decide)).bind fun _ => (readDirective.map _).choice
    ((ahead _).bind fun _ => (wordStatement scope).choice (closeOrSkip scope))

end Composed

end Idl
