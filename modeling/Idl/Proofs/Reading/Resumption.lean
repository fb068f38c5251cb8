import Idl.Proofs.Grammar.Next
import Idl.Proofs.Reading.Local

/-!
# Readings at the seam of two streams

A statement that has used up a stream may still take tokens that follow when
the stream is continued: line ends, the commas behind an enumerator, and the
semicolon behind a method.  These are tokens that are ignored wherever a
statement may stand, so it does not matter which statement takes them.  Only a
word at the end of the stream could go on, namely as the name of a definition
with its value behind.

The property passes from the end of a production to the whole: what stands in
front ends at some token and has not looked behind it.
-/

namespace Idl

open Grammar

/-- The second stream is the first one less some tokens at its front that are
ignored wherever a statement may stand. -/
def Passes (us vs : List Token) : Prop :=
  ∃ js, us = js ++ vs ∧ ∀ t ∈ js, Ignored t

/-- The stream does not end with a word. -/
def Sealed (ts : List Token) : Prop :=
  ∀ t ∈ ts.getLast?, t.kind ≠ .identifier

/-- The reading needs at least a token, and where it has used up a stream that
does not end with a word it does the same on every longer one. -/
structure Resumes {α : Type} (r : Reading α) : Prop where
  starved : ∀ x rest, r [] ≠ .ok (x, rest)
  resumed : ∀ {ts x}, r ts = .ok (x, []) → Sealed ts → ∀ us,
    ∃ vs, r (ts ++ us) = .ok (x, vs) ∧ Passes us vs

/-- The reading takes nothing but ignored tokens. -/
structure Trailing {α : Type} (r : Reading α) : Prop where
  passes : ∀ us, ∃ x vs, r us = .ok (x, vs) ∧ Passes us vs
  resumed : ∀ {ts x}, r ts = .ok (x, []) → ∀ us,
    ∃ y vs, r (ts ++ us) = .ok (y, vs) ∧ Passes us vs

/-! ## Ignored tokens -/

section
variable {ts us vs rest : List Token} {p : Token → Bool}

theorem Passes.refl (us : List Token) : Passes us us :=
  ⟨[], rfl, nofun⟩

theorem Passes.trans {ws : List Token} (h : Passes us vs) (h' : Passes vs ws) :
    Passes us ws := by
  obtain ⟨js, rfl, hjs⟩ := h
  obtain ⟨ks, rfl, hks⟩ := h'
  refine ⟨js ++ ks, (List.append_assoc _ _ _).symm, fun t ht => ?_⟩
  exact (List.mem_append.mp ht).elim (hjs t) (hks t)

theorem passes_dropWhile (hp : ∀ t, p t = true → Ignored t)
    (us : List Token) : Passes us (us.dropWhile p) :=
  ⟨us.takeWhile p, List.takeWhile_append_dropWhile.symm,
    fun t ht => hp t (List.all_eq_true.mp List.all_takeWhile t ht)⟩

theorem ignored_of_line {t : Token} (h : (t.kind == .endLine) = true) :
    Ignored t := by
  simp [Ignored, beq_iff_eq.mp h]

theorem passes_skipLines (us : List Token) : Passes us (skipLines us) :=
  passes_dropWhile (fun _ => ignored_of_line) us

theorem dropWhile_append_of_used (h : ts.dropWhile p = []) (us : List Token) :
    (ts ++ us).dropWhile p = us.dropWhile p := by
  rw [List.dropWhile_append, h]
  rfl

theorem Sealed.of_suffix (h : Sealed ts) (hsuffix : rest <:+ ts)
    (hne : rest ≠ []) : Sealed rest := by
  obtain ⟨front, rfl⟩ := hsuffix
  intro t ht
  refine h t ?_
  rw [List.getLast?_append, List.getLast?_eq_some_getLast hne] at *
  exact ht

end

/-! ## Parts -/

section
variable {α β γ : Type} {r s : Reading α} {q : Reading β} {f : α → Reading β}

theorem trailing_dropWhile {p : Token → Bool} {x : α}
    (hp : ∀ t, p t = true → Ignored t) :
    Trailing (fun ts => .ok (x, ts.dropWhile p) : Reading α) where
  passes us := ⟨x, _, rfl, passes_dropWhile hp us⟩
  resumed {ts y} h us := by
    have hused : ts.dropWhile p = [] := (Prod.mk.inj (Except.ok.inj h)).2
    refine ⟨x, us.dropWhile p, ?_, passes_dropWhile hp us⟩
    rw [dropWhile_append_of_used hused]

theorem trailing_nextLine : Trailing nextLine :=
  trailing_dropWhile fun _ => ignored_of_line

theorem trailing_skipCommas : Trailing skipCommas :=
  trailing_dropWhile fun t ht => by
    rcases Bool.or_eq_true_iff.mp ht with hkind | hkind
    · simp [Ignored, beq_iff_eq.mp hkind]
    · exact ignored_of_line hkind

theorem passes_eat_semicolon (us : List Token) :
    ∃ found vs, eat .semicolon us = .ok (found, vs) ∧ Passes us vs := by
  cases us with
  | nil => exact ⟨false, [], rfl, .refl []⟩
  | cons u us =>
      rw [eat_cons]
      by_cases hkind : u.kind = .semicolon
      · have hfirst : Passes (u :: us) us :=
          ⟨[u], rfl, by simp [Ignored, hkind]⟩
        rw [if_pos hkind]
        exact ⟨true, skipLines us, rfl, hfirst.trans (passes_skipLines us)⟩
      · rw [if_neg hkind]
        exact ⟨false, u :: us, rfl, .refl _⟩

theorem trailing_semicolon : Trailing (eat .semicolon) where
  passes := passes_eat_semicolon
  resumed {ts x} h us := by
    cases ts with
    | nil => exact passes_eat_semicolon us
    | cons t ts =>
        rw [eat_cons] at h
        rw [List.cons_append, eat_cons]
        split at h
        next hkind =>
          have hused : skipLines ts = [] := (Prod.mk.inj (Except.ok.inj h)).2
          rw [if_pos hkind, skipLines, dropWhile_append_of_used hused]
          exact ⟨true, skipLines us, rfl, passes_skipLines us⟩
        next => cases h

theorem resumes_refuse (needed : TokenKind) (fault : Token → Fault) :
    Resumes (refuse needed fault : Reading α) where
  starved _ _ := nofun
  resumed {ts x} h := by
    cases ts <;> cases h

theorem resumes_textOnLine (kind : TokenKind) (production : Production) :
    Resumes (textOnLine kind production) where
  starved _ _ := nofun
  resumed {ts x} h _ us := by
    cases ts with
    | nil => cases h
    | cons t ts =>
        rw [textOnLine] at h
        split at h
        next hkind =>
          cases h
          refine ⟨us, ?_, .refl us⟩
          rw [List.singleton_append, textOnLine, if_pos hkind]
        next => cases h

/-- A token that ends a production, or another way to go on. -/
theorem resumes_eat_choice (kind : TokenKind) (x : α) (hs : Resumes s) :
    Resumes (do if ← eat kind then return x else s) where
  starved y rest h := hs.starved y rest h
  resumed {ts y} h hsealed us := by
    cases ts with
    | nil => exact absurd h (hs.starved y [])
    | cons t ts =>
        rw [Composed.eat_choice_cons] at h
        rw [List.cons_append, Composed.eat_choice_cons]
        split at h
        next hkind =>
          obtain ⟨rfl, hused⟩ := Prod.mk.inj (Except.ok.inj h)
          refine ⟨skipLines us, ?_, passes_skipLines us⟩
          rw [if_pos hkind, skipLines, dropWhile_append_of_used hused]
          rfl
        next hkind =>
          rw [if_neg hkind]
          exact hs.resumed h hsealed us

theorem resumes_expect (kind : TokenKind) (production : Production) :
    Resumes (expect kind production) := by
  rw [Composed.expect_eq]
  exact resumes_eat_choice kind () (resumes_refuse kind _)

/-! ## Productions go on at their end -/

theorem Resumes.behind (hr : Composed r) (hf : ∀ x, Resumes (f x)) :
    Resumes (r >>= f) where
  starved y rest h := by
    obtain ⟨x, mid, hx, hy⟩ := reading_bind_eq_ok.mp h
    obtain rfl : mid = [] := List.suffix_nil.mp (hr.isLocal.suffix_ok hx)
    exact (hf x).starved y rest hy
  resumed {ts y} h hsealed us := by
    obtain ⟨x, mid, hx, hy⟩ := reading_bind_eq_ok.mp h
    have hmid : mid ≠ [] := by
      rintro rfl
      exact (hf x).starved y [] hy
    obtain ⟨vs, hvs, hpasses⟩ := (hf x).resumed hy
      (hsealed.of_suffix (hr.isLocal.suffix_ok hx) hmid) us
    refine ⟨vs, ?_, hpasses⟩
    rw [reading_bind_eq_of_ok (hr.isLocal.append_ok hx hmid us), hvs]

theorem Resumes.yield (hr : Resumes r) (g : α → γ) :
    Resumes (do let x ← r; return g x) where
  starved y rest h := by
    obtain ⟨x, mid, hx, -⟩ := reading_bind_eq_ok.mp h
    exact hr.starved x mid hx
  resumed {ts y} h hsealed us := by
    obtain ⟨x, mid, hx, hy⟩ := reading_bind_eq_ok.mp h
    cases hy
    obtain ⟨vs, hvs, hpasses⟩ := hr.resumed hx hsealed us
    refine ⟨vs, ?_, hpasses⟩
    rw [reading_bind_eq_of_ok hvs]
    rfl

theorem Resumes.map (hr : Resumes r) (g : α → γ) : Resumes (g <$> r) := by
  rw [map_eq_pure_bind]
  exact hr.yield g

theorem Resumes.trailed (hr : Resumes r) (hcomposed : Composed r)
    (hq : Trailing q) (g : α → γ) :
    Resumes (do let x ← r; let _ ← q; return g x) where
  starved y rest h := by
    obtain ⟨x, mid, hx, -⟩ := reading_bind_eq_ok.mp h
    exact hr.starved x mid hx
  resumed {ts y} h hsealed us := by
    obtain ⟨x, mid, hx, hmore⟩ := reading_bind_eq_ok.mp h
    obtain ⟨z, last, hz, hy⟩ := reading_bind_eq_ok.mp hmore
    cases hy
    by_cases hmid : mid = []
    · subst hmid
      obtain ⟨vs, hvs, hpasses⟩ := hr.resumed hx hsealed us
      obtain ⟨z', ws, hws, hpasses'⟩ := hq.passes vs
      refine ⟨ws, ?_, hpasses.trans hpasses'⟩
      rw [reading_bind_eq_of_ok hvs, reading_bind_eq_of_ok hws]
      rfl
    · obtain ⟨z', ws, hws, hpasses⟩ := hq.resumed hz us
      refine ⟨ws, ?_, hpasses⟩
      rw [reading_bind_eq_of_ok (hcomposed.isLocal.append_ok hx hmid us),
        reading_bind_eq_of_ok hws]
      rfl

theorem Resumes.choice {found : Bool} (hr : Resumes r) (hs : Resumes s) :
    Resumes (if found = true then r else s) := by
  cases found with
  | false => exact hs
  | true => exact hr

end

/-! ## Statements go on at their end -/

theorem resumes_word (production : Production) : Resumes (word production) :=
  (resumes_textOnLine _ _).trailed (.textOnLine _ _) trailing_nextLine id

theorem resumes_readMember (production : Production) :
    Resumes (readMember production) :=
  .behind (.readType _) fun _ => .behind (.declarator _) fun _ =>
    (resumes_expect _ _).yield _

theorem resumes_readConstant : Resumes readConstant :=
  .behind (.readType _) fun _ => .behind (.declarator _) fun _ =>
    .behind (.expect (by decide) _) fun _ => .behind .constantValue fun _ =>
      (resumes_expect _ _).yield _

theorem resumes_readModule : Resumes readModule :=
  .behind (.heading _) fun _ => (resumes_expect _ _).yield _

theorem resumes_readStruct : Resumes readStruct := by
  have hbases : Composed (do
      if ← eat .colon then declaredTexts .structBases else return []) :=
    (Composed.eat (by decide)).bind fun _ =>
      (Composed.declaredTexts _).choice (.pure [])
  exact .behind (.heading _) fun _ => .behind hbases fun _ =>
    (resumes_expect _ _).yield _

theorem resumes_readEnum : Resumes readEnum :=
  .behind (.heading _) fun _ => (resumes_expect _ _).yield _

theorem resumes_interfaceBases : Resumes interfaceBases :=
  .behind (.declaredTexts _) fun _ => (resumes_expect _ _).yield _

theorem resumes_invalidInterface : Resumes invalidInterface where
  starved _ _ := nofun
  resumed := nofun

theorem resumes_readInterface : Resumes readInterface :=
  .behind (.heading _) fun _ => resumes_eat_choice _ _ <|
    resumes_eat_choice _ _ <| .behind (.eat (by decide)) fun _ =>
      (resumes_interfaceBases.yield _).choice resumes_invalidInterface

theorem resumes_readUnion : Resumes readUnion := by
  have hswitch : Composed (expectWord "switch" .expectedSwitch) :=
    .expectWord "switch" fun _ => trivial
  exact .behind (.heading _) fun _ => .behind hswitch fun _ =>
    .behind (.expect (by decide) _) fun _ => .behind (.readType _) fun _ =>
      .behind (.expect (by decide) _) fun _ => (resumes_expect _ _).yield _

theorem resumes_keyword_statement (keyword : Keyword) :
    Resumes keyword.statement := by
  cases keyword with
  | module => exact resumes_readModule
  | typedef => exact (resumes_readMember _).yield _
  | struct => exact resumes_readStruct
  | const => exact resumes_readConstant.yield _
  | enum => exact resumes_readEnum
  | interface => exact resumes_readInterface
  | union => exact resumes_readUnion

theorem resumes_readEnumerator : Resumes readEnumerator :=
  (resumes_word _).trailed (.word _) trailing_skipCommas id

theorem resumes_readParameters : Resumes readParameters := by
  have hclose : Composed (expect .closeRound .parameter) :=
    .expect (by decide) _
  have hparameters : Resumes (do
      let parameters ← separated .comma readParameter consumes_readParameter
      expect .closeRound .parameter
      let _ ← eat .semicolon
      return parameters) :=
    .behind (.separated (by decide) _ .readParameter) fun parameters =>
      (resumes_expect _ _).trailed hclose trailing_semicolon fun _ => parameters
  exact .behind (.eat (by decide)) fun _ =>
    ((resumes_expect _ _).yield _).choice hparameters

theorem resumes_readMethod : Resumes readMethod :=
  .behind (.readType _) fun _ => .behind (.declaredText _) fun _ =>
    .behind (.expect (by decide) _) fun _ => resumes_readParameters.yield _

theorem resumes_readCase : Resumes readCase := by
  have hcase : Composed (expectWord "case" .expectedCase) :=
    .expectWord "case" fun _ => trivial
  exact .behind hcase fun _ => .behind (.expect (by decide) _) fun _ =>
    .behind (.readType _) fun _ => .behind (.expect (by decide) _) fun _ =>
      .behind (.expect (by decide) _) fun _ => (resumes_readMember _).yield _

/-- A definition ends with a word. -/
theorem resumes_readDefine : Resumes readDefine where
  starved _ _ := nofun
  resumed {ts d} h hsealed := by
    obtain ⟨n, hn, ⟨rfl, -⟩ | ⟨v, rfl, hv, -⟩⟩ := readDefine_eq_ok.mp h
    · exact absurd hn (hsealed n rfl)
    · exact absurd hv (hsealed v rfl)

theorem resumes_readInclude : Resumes readInclude :=
  (resumes_textOnLine _ _).trailed (.textOnLine _ _) trailing_nextLine
    Directive.include

theorem resumes_readDirective : Resumes readDirective := by
  rw [Composed.readDirective_eq]
  exact .behind (.eatWord _) fun _ => resumes_readDefine.choice <|
    .behind (.eatWord _) fun _ => resumes_readInclude.choice
      (resumes_refuse _ _)

/-! ## Runs go on -/

section
variable {scope : ScopeKind} {s : Statement} {t : Token} {ts : List Token}

theorem Sealed.tail_of_skipLines (h : Sealed (t :: ts))
    (hne : skipLines ts ≠ []) : Sealed (skipLines ts) :=
  h.of_suffix ((skipLines_suffix ts).trans (List.suffix_cons t ts)) hne

theorem Resumes.behindLines {r : Reading Statement} (hr : Resumes r)
    (h : r (skipLines ts) = .ok (s, [])) (hsealed : Sealed (t :: ts))
    (us : List Token) :
    ∃ vs, r (skipLines (ts ++ us)) = .ok (s, vs) ∧ Passes us vs := by
  have hne : skipLines ts ≠ [] := by
    intro hnil
    rw [hnil] at h
    exact hr.starved s [] h
  rw [skipLines_append_of_ne_nil hne]
  exact hr.resumed h (hsealed.tail_of_skipLines hne) us

theorem readWordStatement_resumed
    (h : readWordStatement scope t ts = .ok (s, []))
    (hsealed : Sealed (t :: ts)) (us : List Token) :
    ∃ vs, readWordStatement scope t (ts ++ us) = .ok (s, vs) ∧
      Passes us vs := by
  cases scope with
  | global | module =>
      cases hword : Keyword.ofWord? t.text with
      | none =>
          simp only [readWordStatement, hword] at h
          cases h
      | some keyword =>
          simp only [readWordStatement, hword] at h ⊢
          exact (resumes_keyword_statement keyword).behindLines h hsealed us
  | struct => exact ((resumes_readMember _).map _).resumed h hsealed us
  | enum => exact (resumes_readEnumerator.map _).resumed h hsealed us
  | interface => exact (resumes_readMethod.map _).resumed h hsealed us
  | union => exact (resumes_readCase.map _).resumed h hsealed us

theorem readStatement_resumed (h : readStatement scope t ts = .ok (s, []))
    (hsealed : Sealed (t :: ts)) (us : List Token) :
    ∃ vs, readStatement scope t (ts ++ us) = .ok (s, vs) ∧ Passes us vs := by
  have hlines : skipLines ts = [] → skipLines (ts ++ us) = skipLines us :=
    fun hused => dropWhile_append_of_used hused us
  unfold readStatement at h ⊢
  split at h
  next => exact (resumes_readDirective.map _).behindLines h hsealed us
  next => exact readWordStatement_resumed h hsealed us
  next =>
    split at h
    next => cases h
    next hscope =>
      obtain ⟨rfl, hused⟩ := Prod.mk.inj (Except.ok.inj h)
      rw [if_neg hscope, hlines hused]
      exact ⟨_, rfl, passes_skipLines us⟩
  next =>
    obtain ⟨rfl, hused⟩ := Prod.mk.inj (Except.ok.inj h)
    rw [hlines hused]
    exact ⟨_, rfl, passes_skipLines us⟩

end

end Idl
