import Idl.Proofs.Reading.Local
import Idl.Proofs.Reading.Paired
import Idl.Proofs.Shape.Bare

/-!
# The words that steer a reading

Readings compare words with sixteen fixed ones and with no others.  Two streams
whose tokens agree in kind, and whose words are the same or none of the
sixteen, are therefore read in step: the readings go the same way on both, they
leave rests that agree again, and their results differ in texts only.

One comparison is not with a word of the stream but with a name that has grown
out of two, `unsigned long`.  It comes out alike as long as no word contains a
blank, since then a single word is never that name.
-/

namespace Idl

def steeringWords : List String :=
  ["module", "typedef", "struct", "const", "enum", "interface", "union",
   "define", "include", "switch", "case", "in", "out", "inout", "unsigned",
   "long"]

/-- Words without blanks that are the same or both do not steer. -/
structure WordsAkin (v w : String) : Prop where
  left : ' ' ∉ v.toList
  right : ' ' ∉ w.toList
  role : v = w ∨ v ∉ steeringWords ∧ w ∉ steeringWords

/-- Tokens of one kind, which for identifiers have words that are akin.  Spans
and the texts of all other kinds are arbitrary. -/
structure Token.Akin (t u : Token) : Prop where
  kind : t.kind = u.kind
  words : t.kind = .identifier → WordsAkin t.text u.text

def Akin (ts us : List Token) : Prop := List.Forall₂ Token.Akin ts us

instance (v w : String) : Decidable (WordsAkin v w) :=
  decidable_of_iff
    (' ' ∉ v.toList ∧ ' ' ∉ w.toList ∧
      (v = w ∨ v ∉ steeringWords ∧ w ∉ steeringWords))
    ⟨fun h => ⟨h.1, h.2.1, h.2.2⟩, fun h => ⟨h.left, h.right, h.role⟩⟩

instance (t u : Token) : Decidable (t.Akin u) :=
  decidable_of_iff
    (t.kind = u.kind ∧ (t.kind = .identifier → WordsAkin t.text u.text))
    ⟨fun h => ⟨h.1, h.2⟩, fun h => ⟨h.kind, h.words⟩⟩

/-- Faults that differ in the words they show. -/
def FaultsAkin (_ _ : List Token) (f g : Fault) : Prop := f.bare = g.bare

/-- The two readings go the same way on streams that are akin, up to a relation
of their results. -/
abbrev Steers {α β : Type} (R : α → β → Prop) : Reading α → Reading β → Prop :=
  Pairs Akin FaultsAkin R

/-- Results of which a part is the same. -/
def Matching {α γ : Type} (f : α → γ) (x y : α) : Prop := f x = f y

/-! ## Words and tokens -/

theorem WordsAkin.eq_iff {v w : String} (h : WordsAkin v w) (word : String)
    (hword : word ∈ steeringWords) : v = word ↔ w = word := by
  rcases h.role with rfl | ⟨hv, hw⟩
  · rfl
  · exact ⟨fun heq => absurd (heq ▸ hword) hv,
      fun heq => absurd (heq ▸ hword) hw⟩

theorem Token.Akin.isWord_eq {t u : Token} (h : t.Akin u) {word : String}
    (hword : word ∈ steeringWords) : t.isWord word = u.isWord word := by
  rw [isWord, isWord, ← h.kind]
  by_cases hkind : t.kind = .identifier
  · have htext : (t.text == word) = (u.text == word) := by
      simpa using (h.words hkind).eq_iff word hword
    rw [htext]
  · have hnot : (t.kind == .identifier) = false := by simpa using hkind
    rw [hnot, Bool.false_and, Bool.false_and]

theorem Akin.dropWhile {ts us : List Token} (h : Akin ts us)
    {p : Token → Bool} (hp : ∀ t u, t.kind = u.kind → p t = p u) :
    Akin (ts.dropWhile p) (us.dropWhile p) :=
  forall₂_dropWhile (fun t u htu => hp t u htu.kind) h

theorem Akin.skipLines {ts us : List Token} (h : Akin ts us) :
    Akin (skipLines ts) (skipLines us) :=
  h.dropWhile fun t u hkind => by rw [hkind]

theorem keyword_mem_steeringWords (k : Keyword) :
    k.word ∈ steeringWords := by
  cases k <;> decide

/-! ## Single tokens -/

section
variable {α β : Type} {R : α → β → Prop}

theorem steers_refuse (needed : TokenKind) {fault : Token → Fault}
    (hfault : ∀ t u, t.Akin u → (fault t).bare = (fault u).bare) :
    Steers R (refuse needed fault) (refuse needed fault) := by
  constructor
  intro ts us h
  cases id h with
  | nil => exact .error h rfl
  | @cons t u ts us htu hmore =>
      refine .error h ?_
      rw [← htu.kind]
      split
      · rfl
      · exact hfault t u htu

theorem steered_mismatch (needed : TokenKind) {fault : String → Fault}
    (hfault : ∀ found found', (fault found).bare = (fault found').bare)
    {ts us : List Token} (h : Akin ts us) :
    Paired Akin Akin FaultsAkin R (.error (.mismatch needed fault ts))
      (.error (.mismatch needed fault us)) := by
  have hrefuse : Steers R (refuse needed fun t => fault t.describe)
      (refuse needed fun t => fault t.describe) :=
    steers_refuse needed fun _ _ _ => hfault _ _
  rw [Composed.mismatch_eq, Composed.mismatch_eq]
  exact hrefuse.paired h

theorem steers_eat (kind : TokenKind) : Steers Eq (eat kind) (eat kind) := by
  constructor
  intro ts us h
  cases id h with
  | nil => exact .ok rfl h
  | @cons t u ts us htu hmore =>
      rw [eat_cons, eat_cons, htu.kind]
      split
      · exact .ok rfl (Akin.skipLines hmore)
      · exact .ok rfl h

theorem steers_eatWord {word : String} (hword : word ∈ steeringWords) :
    Steers Eq (eatWord word) (eatWord word) := by
  constructor
  intro ts us h
  cases id h with
  | nil => exact .ok rfl h
  | @cons t u ts us htu hmore =>
      rw [eatWord_cons, eatWord_cons, htu.isWord_eq hword]
      split
      · exact .ok rfl (Akin.skipLines hmore)
      · exact .ok rfl h

theorem steers_ahead (kind : TokenKind) :
    Steers Eq (ahead kind) (ahead kind) := by
  constructor
  intro ts us h
  cases id h with
  | nil => exact .ok rfl h
  | cons htu => exact .ok (by simp [htu.kind]) h

theorem steers_place : Steers (fun _ _ => True) place place :=
  ⟨fun h => .ok trivial h⟩

theorem steers_takeAny : Steers Eq takeAny takeAny := by
  constructor
  intro ts us h
  cases h with
  | nil => exact .ok rfl .nil
  | cons _ hmore => exact .ok rfl (Akin.skipLines hmore)

theorem steers_nextLine : Steers Eq nextLine nextLine :=
  ⟨fun h => .ok rfl h.skipLines⟩

theorem steers_skipCommas : Steers Eq skipCommas skipCommas :=
  ⟨fun h => .ok rfl (h.dropWhile fun t u hkind => by rw [hkind])⟩

theorem steers_textOnLine (kind : TokenKind) (production : Production) :
    Steers (fun v w => kind = .identifier → WordsAkin v w)
      (textOnLine kind production) (textOnLine kind production) := by
  constructor
  intro ts us h
  have hrefused : Paired Akin Akin FaultsAkin
      (fun v w : String => kind = .identifier → WordsAkin v w)
      (.error (.expected kind production ts))
      (.error (.expected kind production us)) :=
    steered_mismatch kind (fun _ _ => rfl) h
  cases h with
  | nil => exact hrefused
  | @cons t u ts us htu hmore =>
      rw [textOnLine, textOnLine, ← htu.kind]
      split
      next hkind => exact .ok (fun h => htu.words (hkind.trans h)) hmore
      next => exact hrefused

theorem steers_wordOnLine (production : Production) :
    Steers WordsAkin (wordOnLine production) (wordOnLine production) :=
  (steers_textOnLine .identifier production).mono fun _ _ h => h rfl

theorem steers_word (production : Production) :
    Steers WordsAkin (word production) (word production) :=
  (steers_wordOnLine production).bind fun _ _ hwords =>
    steers_nextLine.bind fun _ _ _ => pairs_pure hwords

theorem steers_expect (kind : TokenKind) (production : Production) :
    Steers Eq (expect kind production) (expect kind production) := by
  rw [Composed.expect_eq]
  exact (steers_eat kind).branch (pairs_pure rfl)
    (steers_refuse kind fun _ _ _ => rfl)

theorem steers_expectWord {word : String} (hword : word ∈ steeringWords)
    {fault : String → Fault}
    (hfault : ∀ found found', (fault found).bare = (fault found').bare) :
    Steers Eq (expectWord word fault) (expectWord word fault) := by
  rw [Composed.expectWord_eq]
  exact (steers_eatWord hword).branch (pairs_pure rfl)
    (steers_refuse _ fun _ _ _ => hfault _ _)

theorem steers_constantValue :
    Steers (fun _ _ => True) constantValue constantValue := by
  constructor
  intro ts us h
  have hrest : Akin (ts.dropWhile inValue) (us.dropWhile inValue) :=
    h.dropWhile fun t u hkind => by simp only [inValue, hkind]
  cases id h with
  | nil => exact .error h rfl
  | @cons t u ts us htu hmore =>
      by_cases hword : t.kind = .identifier
      · rw [constantValue_of_word hword,
          constantValue_of_word (htu.kind ▸ hword)]
        exact .ok trivial hrest
      · by_cases hliteral : t.kind = .literal
        · rw [constantValue_of_literal hliteral,
            constantValue_of_literal (htu.kind ▸ hliteral)]
          exact .ok trivial hrest
        · rw [constantValue_of_other hword hliteral,
            constantValue_of_other (htu.kind ▸ hword) (htu.kind ▸ hliteral)]
          have hrefuse : Steers (fun _ _ : String => True)
              (refuse .identifier fun t =>
                .expected .identifier .constantValue t.describe)
              (refuse .identifier fun t =>
                .expected .identifier .constantValue t.describe) :=
            steers_refuse _ fun _ _ _ => rfl
          exact hrefuse.paired h

end

/-! ## Sequences and names -/

theorem map_eq_of_forall₂ {α γ : Type} {f : α → γ} {xs ys : List α}
    (h : List.Forall₂ (Matching f) xs ys) : xs.map f = ys.map f := by
  induction h with
  | nil => rfl
  | cons hxy _ ih => rw [List.map_cons, List.map_cons, hxy, ih]

theorem steers_moreSegments (production : Production) :
    Steers (fun _ _ => True) (moreSegments production)
      (moreSegments production) :=
  (pairs_followed (steers_eat _) _ (steers_word production)).mono
    fun _ _ _ => trivial

theorem steers_arraySize (production : Production) :
    Steers (Matching (Option.map blanked)) (arraySize production)
      (arraySize production) :=
  (steers_eat .openSquare).branch
    ((steers_word production).bind fun _ _ _ =>
      (steers_expect _ _).yield fun _ _ _ => rfl)
    (pairs_pure rfl)

theorem steers_declarator (production : Production) :
    Steers (Matching Declarator.bare) (declarator production)
      (declarator production) :=
  (steers_word production).bind fun _ _ _ =>
    (steers_moreSegments production).bind fun _ _ _ =>
      (steers_arraySize production).yield fun _ _ hsize =>
        congrArg (Declarator.mk "") hsize

theorem steers_declaredText (production : Production) :
    Steers (Matching blanked) (declaredText production)
      (declaredText production) :=
  (steers_declarator production).yield fun _ _ _ => rfl

theorem steers_declaredTexts (production : Production) :
    Steers (Matching (List.map blanked)) (declaredTexts production)
      (declaredTexts production) :=
  (pairs_separated (steers_eat _) _ (steers_declaredText production)).mono
    fun _ _ => map_eq_of_forall₂

/-! ## Types -/

/-- Whether the name of a type may be made longer by a word. -/
def TakesLong (name : String) : Prop := name = "long" ∨ name = "unsigned long"

theorem WordsAkin.takesLong {v w : String} (h : WordsAkin v w) :
    TakesLong v ↔ TakesLong w := by
  have hblank : ' ' ∈ "unsigned long".toList := by decide
  have hv : v ≠ "unsigned long" := fun heq => h.left (heq ▸ hblank)
  have hw : w ≠ "unsigned long" := fun heq => h.right (heq ▸ hblank)
  simp only [TakesLong, hv, hw, or_false]
  exact h.eq_iff _ (by decide)

theorem takesLong_unsigned (word : String) :
    TakesLong ("unsigned " ++ word) ↔ word = "long" := by
  have hlong : "unsigned " ++ word ≠ "long" := fun heq => by
    have hfirst := congrArg (fun s : String => s.toList.head?) heq
    simp at hfirst
  have hboth : "unsigned long" = "unsigned " ++ "long" := by decide
  rw [TakesLong, hboth, String.append_right_inj]
  simp only [hlong, false_or]

theorem steers_withSign (production : Production) {v w : String}
    (h : WordsAkin v w) :
    Steers (fun name name' => TakesLong name ↔ TakesLong name')
      (withSign production v) (withSign production w) := by
  have hsign := h.eq_iff "unsigned" (by decide)
  unfold withSign
  by_cases hv : v = "unsigned"
  · rw [if_pos hv, if_pos (hsign.mp hv)]
    refine (steers_word production).yield fun x y hxy => ?_
    rw [takesLong_unsigned, takesLong_unsigned]
    exact hxy.eq_iff _ (by decide)
  · rw [if_neg hv, if_neg (mt hsign.mpr hv)]
    exact pairs_pure h.takesLong

theorem steers_withLength {name name' : String}
    (h : TakesLong name ↔ TakesLong name') :
    Steers (fun _ _ => True) (withLength name) (withLength name') := by
  have hlong : "long" ∈ steeringWords := by decide
  unfold TakesLong at h
  by_cases hname : name = "long" ∨ name = "unsigned long"
  · rw [withLength, withLength, if_pos hname, if_pos (h.mp hname)]
    exact (steers_eatWord hlong).branch (pairs_pure trivial)
      (pairs_pure trivial)
  · rw [withLength, withLength, if_neg hname, if_neg (mt h.mpr hname)]
    exact pairs_pure trivial

theorem steers_typeName (production : Production) {v w : String}
    (h : WordsAkin v w) :
    Steers (fun _ _ => True) (typeName production v)
      (typeName production w) :=
  (steers_withSign production h).bind fun _ _ hname =>
    (steers_withLength hname).bind fun _ _ _ =>
      (steers_moreSegments production).yield fun _ _ _ => trivial

theorem bares_eq_of_forall₂ {ts us : List TypeRef}
    (h : List.Forall₂ (Matching TypeRef.bare) ts us) :
    TypeRef.bares ts = TypeRef.bares us := by
  induction h with
  | nil => rfl
  | cons htu _ ih => exact congrArg₂ (· :: ·) htu ih

theorem steers_readType (production : Production) :
    Steers (Matching TypeRef.bare) (readType production)
      (readType production) := by
  have htypes : PairsTypes Akin FaultsAkin WordsAkin
      (Matching TypeRef.bare) := {
    first := steers_word
    less := steers_eat .less
    comma := steers_eat .comma
    greater := steers_expect .greater .templateArguments
    name := fun production _ _ _ _ hwords harguments =>
      (steers_typeName production hwords).yield fun _ _ _ =>
        congrArg (TypeRef.mk "" none) (bares_eq_of_forall₂ harguments) }
  exact htypes.readType production

end Idl
