import Idl.Proofs.Grammar.Declarations
import Idl.Proofs.Grammar.Members
import Idl.Proofs.Reading.Local
import Idl.Proofs.Reading.Paired

/-!
# Reading two streams in lockstep

Two streams that differ in ways no reading looks at are read in the same way.
What differs is left open: the streams are related, and whatever the relation
is, it says that they either halt both or have the same token in front, up to
its span, and are related again behind it.  Line ends do not count, so streams
may differ in these, and the number sign of a directive counts as an end, as
no reading inside a statement takes it.

Readings are paired with themselves on such streams.  So are all readings of a
statement, except that of a definition, which looks at line ends.
-/

namespace Idl

open Grammar

/-- What a reading sees of a token: everything but the span. -/
def Token.shape (t : Token) : TokenKind × String := (t.kind, t.text)

/-- The tokens in front are the same up to their spans, or there are none. -/
def SameFront (ts us : List Token) : Prop :=
  ts.head?.map Token.shape = us.head?.map Token.shape

/-- No reading inside a statement takes anything from the stream. -/
inductive Halted : List Token → Prop where
  | ended : Halted []
  | hash {t : Token} {ts : List Token} (hhash : t.kind = .hash) :
      Halted (t :: ts)

inductive Fronts (S : List Token → List Token → Prop) :
    List Token → List Token → Prop where
  | halted {ts us : List Token} (hts : Halted ts) (hus : Halted us) :
      Fronts S ts us
  | token {t u : Token} {ts us : List Token} (hshape : t.shape = u.shape)
      (hhash : t.kind ≠ .hash) (hline : t.kind ≠ .endLine)
      (hbehind : S (skipLines ts) (skipLines us)) :
      Fronts S (t :: ts) (u :: us)

/-- Related streams go on in the same way. -/
def InStep (S : List Token → List Token → Prop) : Prop :=
  ∀ ts us, S ts us → Fronts S ts us

/-- A fault tells what stands in front, so it is the same one where the fronts
are. -/
def SameFault (ts us : List Token) (f g : Fault) : Prop :=
  SameFront ts us → f = g

/-- The same outcome up to a relation of the results. -/
abbrev Agreed {α β : Type} (S T : List Token → List Token → Prop)
    (R : α → β → Prop) :
    Except Failure (α × List Token) → Except Failure (β × List Token) → Prop :=
  Paired S T SameFault R

/-- The two readings do the same on related streams, up to a relation of their
results. -/
abbrev Agrees {α β : Type} (S : List Token → List Token → Prop)
    (R : α → β → Prop) : Reading α → Reading β → Prop :=
  Pairs S SameFault R

/-- Related streams that do not start with a line end. -/
structure Level (T : List Token → List Token → Prop) (ts us : List Token) :
    Prop where
  left : Settled ts
  right : Settled us
  related : T ts us

/-! ## Tokens of the same shape -/

section
variable {t u : Token}

theorem Token.kind_eq (h : t.shape = u.shape) : t.kind = u.kind :=
  congrArg Prod.fst h

theorem Token.text_eq (h : t.shape = u.shape) : t.text = u.text :=
  congrArg Prod.snd h

theorem Token.describe_eq (h : t.shape = u.shape) :
    t.describe = u.describe := by
  simp only [Token.describe, Token.kind_eq h, Token.text_eq h]

theorem Token.isWord_eq (h : t.shape = u.shape) (word : String) :
    t.isWord word = u.isWord word := by
  simp only [Token.isWord, Token.kind_eq h, Token.text_eq h]

theorem inValue_eq (h : t.shape = u.shape) : inValue t = inValue u := by
  simp only [inValue, Token.kind_eq h]

theorem valuePart_eq (h : t.shape = u.shape) : valuePart t = valuePart u := by
  simp only [valuePart, Token.kind_eq h, Token.text_eq h]

end

/-! ## Results that are the same on both sides -/

section
variable {α γ δ : Type} {S : List Token → List Token → Prop}
  {Q : γ → δ → Prop}

theorem Agrees.yield {r s : Reading α} {f : α → γ} {g : α → δ}
    (h : Agrees S Eq r s) (hfg : ∀ x, Q (f x) (g x)) :
    Agrees S Q (do return f (← r)) (do return g (← s)) :=
  h.andThen fun x => pairs_pure (hfg x)

theorem Agrees.map {r s : Reading α} {f : α → γ} {g : α → δ}
    (h : Agrees S Eq r s) (hfg : ∀ x, Q (f x) (g x)) :
    Agrees S Q (f <$> r) (g <$> s) :=
  Pairs.map h fun x _ hxy => hxy ▸ hfg x

end

/-! ## Single tokens -/

section
variable {α β : Type} {S T : List Token → List Token → Prop}
  {R : α → β → Prop}

theorem agreed_refuse (needed : TokenKind) {fault : Token → Fault}
    (hfault : ∀ t u, t.shape = u.shape → fault t = fault u)
    {ts us : List Token} (h : S ts us) :
    Agreed S T R (refuse needed fault ts) (refuse needed fault us) := by
  cases ts with
  | nil =>
      cases us with
      | nil => exact .error h fun _ => rfl
      | cons u us => exact .error h nofun
  | cons t ts =>
      cases us with
      | nil => exact .error h nofun
      | cons u us =>
          refine .error h fun hfront => ?_
          have hshape : t.shape = u.shape := Option.some.inj hfront
          rw [Token.kind_eq hshape, hfault t u hshape]

theorem agrees_refuse (needed : TokenKind) {fault : Token → Fault}
    (hfault : ∀ t u, t.shape = u.shape → fault t = fault u) :
    Agrees S R (refuse needed fault) (refuse needed fault) :=
  ⟨fun h => agreed_refuse needed hfault h⟩

end

section
variable {ts : List Token} {kind : TokenKind}

theorem Halted.eat (h : Halted ts) (hkind : kind ≠ .hash) :
    eat kind ts = .ok (false, ts) := by
  cases h with
  | ended => rfl
  | hash hhash => rw [eat_cons, if_neg (hhash ▸ Ne.symm hkind)]

theorem Halted.eatWord (h : Halted ts) (word : String) :
    eatWord word ts = .ok (false, ts) := by
  cases h with
  | ended => rfl
  | hash hhash => simp [eatWord_cons, Token.isWord, hhash]

theorem Halted.isWord (h : Halted ts) (t : Token) (ht : t ∈ ts.head?)
    (word : String) : t.isWord word = false := by
  cases h with
  | ended => cases ht
  | hash hhash =>
      cases ht
      simp [Token.isWord, hhash]

theorem Halted.ahead (h : Halted ts) (hkind : kind ≠ .hash) :
    ahead kind ts = .ok (false, ts) := by
  cases h with
  | ended => rfl
  | hash hhash => simp [Idl.ahead, hhash, Ne.symm hkind]

theorem Halted.dropWhile {p : Token → Bool}
    (hp : ∀ t, t.kind = .hash → p t = false) (h : Halted ts) :
    ts.dropWhile p = ts := by
  cases h with
  | ended => rfl
  | @hash t ts hhash => simp [hp t hhash]

theorem Halted.takeWhile {p : Token → Bool}
    (hp : ∀ t, t.kind = .hash → p t = false) (h : Halted ts) :
    ts.takeWhile p = [] := by
  cases h with
  | ended => rfl
  | @hash t ts hhash => simp [hp t hhash]

end

/-- A token with a text, and the line ends behind it. -/
def textToken (kind : TokenKind) (production : Production) :
    Reading String := do
  let text ← textOnLine kind production
  nextLine
  return text

section
variable {kind : TokenKind}

theorem textToken_taken {t : Token} (hkind : t.kind = kind)
    (production : Production) (ts : List Token) :
    textToken kind production (t :: ts) = .ok (t.text, skipLines ts) := by
  have htext : textOnLine kind production (t :: ts) = .ok (t.text, ts) := by
    rw [textOnLine, if_pos hkind]
  rw [textToken, reading_bind_eq_of_ok htext]
  rfl

theorem textToken_refused {ts : List Token}
    (hkind : ∀ t ∈ ts.head?, t.kind ≠ kind) (production : Production) :
    textToken kind production ts =
      refuse kind (fun t => .expected kind production t.describe) ts := by
  cases ts with
  | nil => rfl
  | cons t ts =>
      have htext : textOnLine kind production (t :: ts) =
          .error (.expected kind production (t :: ts)) := by
        rw [textOnLine, if_neg (hkind t rfl)]
      rw [textToken, reading_bind_eq_of_error htext]
      exact Composed.mismatch_eq kind _ (t :: ts)

theorem constantValue_refused {ts : List Token}
    (hkind : ∀ t ∈ ts.head?, t.kind ≠ .identifier ∧ t.kind ≠ .literal) :
    constantValue ts = refuse .identifier
      (fun t => .expected .identifier .constantValue t.describe) ts := by
  cases ts with
  | nil => rfl
  | cons t ts =>
      exact constantValue_of_other (hkind t rfl).1 (hkind t rfl).2 ts

theorem Halted.front_ne {ts : List Token} (h : Halted ts)
    (hkind : kind ≠ .hash) : ∀ t ∈ ts.head?, t.kind ≠ kind := by
  cases h with
  | ended => exact nofun
  | hash hhash =>
      intro u hu
      cases hu
      exact hhash ▸ Ne.symm hkind

end

namespace InStep

variable {S : List Token → List Token → Prop}

/-- A reading that looks at no more than the token in front. -/
theorem ofFront {α : Type} {r : Reading α} (hS : InStep S)
    (hhalted : ∀ {ts us}, S ts us → Halted ts → Halted us →
      Agreed S S Eq (r ts) (r us))
    (htoken : ∀ {t u ts us}, S (t :: ts) (u :: us) → t.shape = u.shape →
      t.kind ≠ .hash → S (skipLines ts) (skipLines us) →
        Agreed S S Eq (r (t :: ts)) (r (u :: us))) : Agrees S Eq r r := by
  constructor
  intro ts us h
  cases hS _ _ h with
  | halted hts hus => exact hhalted h hts hus
  | token hshape hhash hline hbehind => exact htoken h hshape hhash hbehind

theorem eat (hS : InStep S) {kind : TokenKind} (hkind : kind ≠ .hash) :
    Agrees S Eq (Idl.eat kind) (Idl.eat kind) := by
  refine hS.ofFront (fun h hts hus => ?_)
    fun {t u ts us} h hshape _ hbehind => ?_
  · rw [hts.eat hkind, hus.eat hkind]
    exact .ok rfl h
  · rw [eat_cons, eat_cons, Token.kind_eq hshape]
    split
    · exact .ok rfl hbehind
    · exact .ok rfl h

theorem eatWord (hS : InStep S) (word : String) :
    Agrees S Eq (Idl.eatWord word) (Idl.eatWord word) := by
  refine hS.ofFront (fun h hts hus => ?_)
    fun {t u ts us} h hshape _ hbehind => ?_
  · rw [hts.eatWord, hus.eatWord]
    exact .ok rfl h
  · rw [eatWord_cons, eatWord_cons, Token.isWord_eq hshape]
    split
    · exact .ok rfl hbehind
    · exact .ok rfl h

theorem ahead (hS : InStep S) {kind : TokenKind} (hkind : kind ≠ .hash) :
    Agrees S Eq (Idl.ahead kind) (Idl.ahead kind) := by
  refine hS.ofFront (fun h hts hus => ?_) fun h hshape _ _ => ?_
  · rw [hts.ahead hkind, hus.ahead hkind]
    exact .ok rfl h
  · exact .ok (by simp [Token.kind_eq hshape]) h

theorem textToken (hS : InStep S) {kind : TokenKind} (hkind : kind ≠ .hash)
    (production : Production) :
    Agrees S Eq (Idl.textToken kind production)
      (Idl.textToken kind production) := by
  have hfault : ∀ t u : Token, t.shape = u.shape →
      Fault.expected kind production t.describe =
        .expected kind production u.describe :=
    fun _ _ h => congrArg _ (Token.describe_eq h)
  refine hS.ofFront (fun h hts hus => ?_)
    fun {t u ts us} h hshape _ hbehind => ?_
  · rw [textToken_refused (hts.front_ne hkind),
      textToken_refused (hus.front_ne hkind)]
    exact agreed_refuse kind hfault h
  · by_cases htaken : t.kind = kind
    · rw [textToken_taken htaken,
        textToken_taken ((Token.kind_eq hshape).symm.trans htaken)]
      exact .ok (Token.text_eq hshape) hbehind
    · have hrefused : u.kind ≠ kind := Token.kind_eq hshape ▸ htaken
      rw [textToken_refused (by simpa using htaken),
        textToken_refused (by simpa using hrefused)]
      exact agreed_refuse kind hfault h

theorem word (hS : InStep S) (production : Production) :
    Agrees S Eq (Idl.word production) (Idl.word production) :=
  hS.textToken (by decide) production

theorem expect (hS : InStep S) {kind : TokenKind} (hkind : kind ≠ .hash)
    (production : Production) :
    Agrees S Eq (Idl.expect kind production) (Idl.expect kind production) := by
  rw [Composed.expect_eq]
  exact (hS.eat hkind).andThen fun _ => (pairs_pure rfl).choice
    (agrees_refuse kind fun _ _ h => congrArg _ (Token.describe_eq h))

theorem expectWord (hS : InStep S) (word : String) (fault : String → Fault) :
    Agrees S Eq (Idl.expectWord word fault) (Idl.expectWord word fault) := by
  rw [Composed.expectWord_eq]
  exact (hS.eatWord word).andThen fun _ => (pairs_pure rfl).choice
    (agrees_refuse _ fun _ _ h => congrArg _ (Token.describe_eq h))

/-! ## Runs of tokens -/

/-- A run of tokens that may hold line ends is dropped from both streams. -/
theorem dropWhile (hS : InStep S) {p : Token → Bool}
    (hshape : ∀ {t u}, t.shape = u.shape → p t = p u)
    (hhash : ∀ t, t.kind = .hash → p t = false)
    (hline : ∀ t, t.kind = .endLine → p t = true) {ts us : List Token}
    (h : S ts us) : S (ts.dropWhile p) (us.dropWhile p) := by
  induction hlength : ts.length using Nat.strongRecOn generalizing ts us with
  | ind n ih =>
      cases hS _ _ h with
      | halted hts hus =>
          rw [hts.dropWhile hhash, hus.dropWhile hhash]
          exact h
      | @token t u ts us htu _ _ hbehind =>
          by_cases hp : p t = true
          · have hp' : p u = true := hshape htu ▸ hp
            have hle := skipLines_length_le ts
            rw [List.length_cons] at hlength
            rw [List.dropWhile_cons_of_pos hp, List.dropWhile_cons_of_pos hp',
              ← dropWhile_skipLines hline ts, ← dropWhile_skipLines hline us]
            exact ih _ (by omega) hbehind rfl
          · have hp' : ¬ p u = true := hshape htu ▸ hp
            rw [List.dropWhile_cons_of_neg hp, List.dropWhile_cons_of_neg hp']
            exact h

theorem valueText (hS : InStep S) {ts us : List Token} (h : S ts us) :
    Idl.valueText (ts.takeWhile inValue) =
      Idl.valueText (us.takeWhile inValue) := by
  have hhash : ∀ t : Token, t.kind = .hash → inValue t = false := fun t ht => by
    simp [inValue, ht]
  induction hlength : ts.length using Nat.strongRecOn generalizing ts us with
  | ind n ih =>
      cases hS _ _ h with
      | halted hts hus => rw [hts.takeWhile hhash, hus.takeWhile hhash]
      | @token t u ts us htu _ _ hbehind =>
          by_cases hp : inValue t = true
          · have hp' : inValue u = true := inValue_eq htu ▸ hp
            have hle := skipLines_length_le ts
            rw [List.length_cons] at hlength
            rw [takeWhile_inValue_cons hp, takeWhile_inValue_cons hp',
              ← valueText_takeWhile_skipLines ts,
              ← valueText_takeWhile_skipLines us, valuePart_eq htu,
              ih _ (by omega) hbehind rfl]
          · have hp' : ¬ inValue u = true := inValue_eq htu ▸ hp
            rw [List.takeWhile_cons_of_neg hp, List.takeWhile_cons_of_neg hp']

theorem skipCommas (hS : InStep S) :
    Agrees S Eq Idl.skipCommas Idl.skipCommas :=
  ⟨fun h => .ok rfl (hS.dropWhile
    (fun hshape => by rw [Token.kind_eq hshape])
    (fun t ht => by simp [ht]) comma_or_endLine_of_endLine h)⟩

theorem constantValue (hS : InStep S) :
    Agrees S Eq Idl.constantValue Idl.constantValue := by
  constructor
  intro ts us h
  have htext := hS.valueText h
  have hrest := hS.dropWhile inValue_eq (fun t ht => by simp [inValue, ht])
    inValue_of_endLine h
  have hrefuse : Agreed S S (Eq (α := String))
      (refuse .identifier (fun t =>
        .expected .identifier .constantValue t.describe) ts)
      (refuse .identifier (fun t =>
        .expected .identifier .constantValue t.describe) us) :=
    agreed_refuse .identifier
      (fun t u hshape => congrArg _ (Token.describe_eq hshape)) h
  cases hS _ _ h with
  | halted hts hus =>
      rw [constantValue_refused fun t ht =>
          ⟨hts.front_ne (by decide) t ht, hts.front_ne (by decide) t ht⟩,
        constantValue_refused fun t ht =>
          ⟨hus.front_ne (by decide) t ht, hus.front_ne (by decide) t ht⟩]
      exact hrefuse
  | @token t u ts us hshape _ _ _ =>
      have hkind := Token.kind_eq hshape
      by_cases hword : t.kind = .identifier
      · rw [constantValue_of_word hword, constantValue_of_word (hkind ▸ hword)]
        exact .ok htext hrest
      · by_cases hliteral : t.kind = .literal
        · rw [constantValue_of_literal hliteral,
            constantValue_of_literal (hkind ▸ hliteral)]
          exact .ok (by rw [htext]) hrest
        · rw [constantValue_of_other hword hliteral,
            constantValue_of_other (hkind ▸ hword) (hkind ▸ hliteral)]
          exact hrefuse

/-! ## Sequences and names -/

theorem followed (hS : InStep S) {α : Type} {separator : TokenKind}
    {item : Reading α} (hseparator : separator ≠ .hash)
    (hconsumes : Consumes item) (hitem : Agrees S Eq item item) :
    Agrees S Eq (Idl.followed separator item hconsumes)
      (Idl.followed separator item hconsumes) :=
  (pairs_followed (hS.eat hseparator) hconsumes hitem).mono
    fun _ _ => (congrFun₂ List.forall₂_eq_eq_eq _ _).mp

theorem separated (hS : InStep S) {α : Type} {separator : TokenKind}
    {item : Reading α} (hseparator : separator ≠ .hash)
    (hconsumes : Consumes item) (hitem : Agrees S Eq item item) :
    Agrees S Eq (Idl.separated separator item hconsumes)
      (Idl.separated separator item hconsumes) :=
  hitem.andThen fun _ => (hS.followed hseparator hconsumes hitem).yield
    fun _ => rfl

theorem moreSegments (hS : InStep S) (production : Production) :
    Agrees S Eq (Idl.moreSegments production) (Idl.moreSegments production) :=
  hS.followed (by decide) _ (hS.word production)

theorem arraySize (hS : InStep S) (production : Production) :
    Agrees S Eq (Idl.arraySize production) (Idl.arraySize production) :=
  (hS.eat (by decide)).andThen fun _ => Pairs.choice
    ((hS.word production).andThen fun _ =>
      (hS.expect (by decide) production).yield fun _ => rfl)
    (pairs_pure rfl)

theorem declarator (hS : InStep S) (production : Production) :
    Agrees S Eq (Idl.declarator production) (Idl.declarator production) :=
  (hS.word production).andThen fun _ =>
    (hS.moreSegments production).andThen fun _ =>
      (hS.arraySize production).yield fun _ => rfl

theorem declaredText (hS : InStep S) (production : Production) :
    Agrees S Eq (Idl.declaredText production) (Idl.declaredText production) :=
  (hS.declarator production).yield fun _ => rfl

theorem declaredTexts (hS : InStep S) (production : Production) :
    Agrees S Eq (Idl.declaredTexts production)
      (Idl.declaredTexts production) :=
  hS.separated (by decide) _ (hS.declaredText production)

/-! ## Types -/

theorem withSign (hS : InStep S) (production : Production) (first : String) :
    Agrees S Eq (Idl.withSign production first)
      (Idl.withSign production first) := by
  unfold Idl.withSign
  split
  · exact (hS.word production).yield fun _ => rfl
  · exact pairs_pure rfl

theorem withLength (hS : InStep S) (name : String) :
    Agrees S Eq (Idl.withLength name) (Idl.withLength name) := by
  unfold Idl.withLength
  split
  · exact (hS.eatWord _).andThen fun _ =>
      (pairs_pure rfl).choice (pairs_pure rfl)
  · exact pairs_pure rfl

theorem typeName (hS : InStep S) (production : Production) (first : String) :
    Agrees S Eq (Idl.typeName production first)
      (Idl.typeName production first) :=
  (hS.withSign production first).andThen fun signed =>
    (hS.withLength signed).andThen fun _ =>
      (hS.moreSegments production).yield fun _ => rfl

theorem readType (hS : InStep S) (production : Production) :
    Agrees S Eq (Idl.readType production) (Idl.readType production) := by
  have htypes : PairsTypes S SameFault Eq Eq := {
    first := hS.word
    less := hS.eat (by decide)
    comma := hS.eat (by decide)
    greater := hS.expect (by decide) _
    name := fun production {v w arguments arguments'} hvw hsame => by
      rw [List.forall₂_eq_eq_eq] at hsame
      subst hvw hsame
      exact (hS.typeName production v).yield fun _ => rfl }
  exact htypes.readType production

end InStep

end Idl
