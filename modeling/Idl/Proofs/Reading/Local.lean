import Idl.Proofs.Reading.Composed

/-!
# Readings decide by what they have seen

A reading that ends in front of a token has not looked behind that token.  So
when the stream is continued it ends at the same place, with the same result
or the same fault.  Only where it has used up the stream may a continuation
matter, and a fault there always is that the input has ended.
-/

namespace Idl

/-- What a reading does with a stream does not depend on what follows behind
the token it ends at. -/
structure Local {α : Type} (r : Reading α) : Prop where
  suffix_ok : ∀ {ts x rest}, r ts = .ok (x, rest) → rest <:+ ts
  suffix_error : ∀ {ts fault rest}, r ts = .error ⟨fault, rest⟩ → rest <:+ ts
  append_ok : ∀ {ts x rest}, r ts = .ok (x, rest) → rest ≠ [] →
    ∀ us, r (ts ++ us) = .ok (x, rest ++ us)
  append_error : ∀ {ts fault rest}, r ts = .error ⟨fault, rest⟩ → rest ≠ [] →
    ∀ us, r (ts ++ us) = .error ⟨fault, rest ++ us⟩
  endOfInput : ∀ {ts fault}, r ts = .error ⟨fault, []⟩ →
    ∃ kind, fault = .endOfInput kind
  conclusive : ∀ {ts fault t rest}, r ts = .error ⟨fault, t :: rest⟩ →
    t.kind ≠ .endOfInput → fault.Conclusive

/-! ## Continued streams -/

theorem dropWhile_append_of_ne_nil {p : Token → Bool} {ts : List Token}
    (h : ts.dropWhile p ≠ []) (us : List Token) :
    (ts ++ us).dropWhile p = ts.dropWhile p ++ us := by
  simp [List.dropWhile_append, h]

theorem takeWhile_append_of_ne_nil {p : Token → Bool} {ts : List Token}
    (h : ts.dropWhile p ≠ []) (us : List Token) :
    (ts ++ us).takeWhile p = ts.takeWhile p := by
  induction ts with
  | nil => exact absurd rfl h
  | cons t ts ih =>
      by_cases ht : p t = true
      · rw [List.dropWhile_cons_of_pos ht] at h
        rw [List.cons_append, List.takeWhile_cons_of_pos ht,
          List.takeWhile_cons_of_pos ht, ih h]
      · rw [List.cons_append, List.takeWhile_cons_of_neg ht,
          List.takeWhile_cons_of_neg ht]

theorem skipLines_append_of_ne_nil {ts : List Token} (h : skipLines ts ≠ [])
    (us : List Token) : skipLines (ts ++ us) = skipLines ts ++ us :=
  dropWhile_append_of_ne_nil h us

theorem skipLines_suffix (ts : List Token) : skipLines ts <:+ ts :=
  List.dropWhile_suffix _

/-! ## The parts are local -/

section
variable {α : Type}

theorem Local.of_total {r : Reading α} (htotal : ∀ ts e, r ts ≠ .error e)
    (hsuffix : ∀ {ts x rest}, r ts = .ok (x, rest) → rest <:+ ts)
    (happend : ∀ {ts x rest}, r ts = .ok (x, rest) → rest ≠ [] →
      ∀ us, r (ts ++ us) = .ok (x, rest ++ us)) : Local r where
  suffix_ok := hsuffix
  suffix_error h := absurd h (htotal _ _)
  append_ok := happend
  append_error h := absurd h (htotal _ _)
  endOfInput h := absurd h (htotal _ _)
  conclusive h := absurd h (htotal _ _)

theorem local_pure (x : α) : Local (pure x : Reading α) := by
  refine .of_total (fun ts e h => by cases h) ?_ ?_
  · intro ts y rest h
    cases h
    exact List.suffix_rfl
  · intro ts y rest h _ us
    cases h
    rfl

theorem local_nextLine : Local nextLine := by
  refine .of_total (fun ts e h => by cases h) ?_ ?_
  · intro ts x rest h
    cases h
    exact skipLines_suffix ts
  · intro ts x rest h hne us
    cases h
    rw [nextLine, skipLines_append_of_ne_nil hne]

theorem local_ahead (kind : TokenKind) : Local (ahead kind) := by
  refine .of_total (fun ts e h => by cases h) ?_ ?_
  · intro ts x rest h
    cases h
    exact List.suffix_rfl
  · intro ts x rest h hne us
    cases h
    cases ts with
    | nil => exact absurd rfl hne
    | cons t ts => rfl

theorem local_place : Local place := by
  refine .of_total (fun ts e h => by cases h) ?_ ?_
  · intro ts x rest h
    cases h
    exact List.suffix_rfl
  · intro ts x rest h hne us
    cases h
    cases ts with
    | nil => exact absurd rfl hne
    | cons t ts => rfl

theorem local_takeAny : Local takeAny := by
  refine .of_total (fun ts e h => by cases h) ?_ ?_
  · intro ts x rest h
    cases h
    exact (skipLines_suffix _).trans (List.tail_suffix ts)
  · intro ts x rest h hne us
    cases h
    cases ts with
    | nil => exact absurd rfl hne
    | cons t ts =>
        have happend := skipLines_append_of_ne_nil hne us
        rw [List.tail_cons] at happend
        rw [takeAny, List.cons_append, List.tail_cons, happend]
        rfl

theorem local_skipCommas : Local skipCommas := by
  refine .of_total (fun ts e h => by cases h) ?_ ?_
  · intro ts x rest h
    cases h
    exact List.dropWhile_suffix _
  · intro ts x rest h hne us
    cases h
    rw [skipCommas, dropWhile_append_of_ne_nil hne]

theorem eat_cons (kind : TokenKind) (t : Token) (ts : List Token) :
    eat kind (t :: ts) =
      if t.kind = kind then .ok (true, skipLines ts)
      else .ok (false, t :: ts) := by
  unfold eat eat?
  by_cases hkind : t.kind = kind
  · simp only [if_pos hkind]
  · simp only [if_neg hkind]

theorem eatWord_cons (word : String) (t : Token) (ts : List Token) :
    eatWord word (t :: ts) =
      if t.isWord word then .ok (true, skipLines ts)
      else .ok (false, t :: ts) := by
  unfold eatWord eatWord?
  by_cases hword : t.isWord word
  · simp only [if_pos hword]
  · simp only [if_neg hword]

/-- A reading that takes the token in front, with the line ends behind it, or
leaves the stream as it is. -/
theorem Local.of_taking {r : Reading Bool} {p : Token → Prop}
    [DecidablePred p] (hnil : r [] = .ok (false, []))
    (hcons : ∀ t ts, r (t :: ts) =
      if p t then .ok (true, skipLines ts) else .ok (false, t :: ts)) :
    Local r := by
  refine .of_total ?_ ?_ ?_
  · intro ts e h
    cases ts with
    | nil =>
        rw [hnil] at h
        cases h
    | cons t ts =>
        rw [hcons] at h
        split at h <;> cases h
  · intro ts x rest h
    cases ts with
    | nil =>
        rw [hnil] at h
        cases h
        exact List.suffix_rfl
    | cons t ts =>
        rw [hcons] at h
        split at h
        · cases h
          exact (skipLines_suffix ts).trans (List.suffix_cons t ts)
        · cases h
          exact List.suffix_rfl
  · intro ts x rest h hne us
    cases ts with
    | nil =>
        rw [hnil] at h
        cases h
        exact absurd rfl hne
    | cons t ts =>
        rw [hcons] at h
        rw [List.cons_append, hcons]
        split at h
        next hp =>
          cases h
          rw [if_pos hp, skipLines_append_of_ne_nil hne]
        next hp =>
          cases h
          rw [if_neg hp]
          rfl

theorem local_eat (kind : TokenKind) : Local (eat kind) :=
  .of_taking rfl (eat_cons kind)

theorem local_eatWord (word : String) : Local (eatWord word) :=
  .of_taking rfl (eatWord_cons word)

/-- The reading takes something from the token in front on, or it refuses that
token. -/
structure TakesFront (r : Reading α) (needed : TokenKind)
    (fault : Token → Fault) : Prop where
  nil : r [] = .error ⟨.endOfInput needed, []⟩
  cons : ∀ t ts, (∃ x rest, r (t :: ts) = .ok (x, rest) ∧ rest <:+ t :: ts ∧
      (rest ≠ [] → ∀ us, r (t :: (ts ++ us)) = .ok (x, rest ++ us))) ∨
    ∀ us, r (t :: us) = refuse needed fault (t :: us)

section
variable {r : Reading α} {needed : TokenKind} {fault : Token → Fault}

theorem TakesFront.taken (h : TakesFront r needed fault) {ts rest : List Token}
    {x : α} (hr : r ts = .ok (x, rest)) :
    rest <:+ ts ∧ (rest ≠ [] → ∀ us, r (ts ++ us) = .ok (x, rest ++ us)) := by
  cases ts with
  | nil =>
      rw [h.nil] at hr
      cases hr
  | cons t ts =>
      rcases h.cons t ts with ⟨y, mid, hmid, hsuffix, happend⟩ | hrefuse
      · rw [hmid] at hr
        cases hr
        exact ⟨hsuffix, happend⟩
      · rw [hrefuse] at hr
        cases hr

theorem TakesFront.refused (h : TakesFront r needed fault)
    {ts rest : List Token} {e : Fault} (hr : r ts = .error ⟨e, rest⟩) :
    rest = ts ∧ (ts = [] ∧ e = .endOfInput needed ∨
      ∃ t us, ts = t :: us ∧ (t.kind ≠ .endOfInput → e = fault t) ∧
        ∀ vs, r (t :: vs) = .error ⟨e, t :: vs⟩) := by
  cases ts with
  | nil =>
      rw [h.nil] at hr
      cases hr
      exact ⟨rfl, .inl ⟨rfl, rfl⟩⟩
  | cons t ts =>
      rcases h.cons t ts with ⟨y, mid, hmid, -, -⟩ | hrefuse
      · rw [hmid] at hr
        cases hr
      · rw [hrefuse] at hr
        cases hr
        exact ⟨rfl, .inr ⟨t, ts, rfl, fun ht => if_neg ht, hrefuse⟩⟩

theorem TakesFront.isLocal (h : TakesFront r needed fault)
    (hfault : ∀ t, (fault t).Conclusive) : Local r where
  suffix_ok hr := (h.taken hr).1
  append_ok hr := (h.taken hr).2
  suffix_error hr := by
    have hrest := (h.refused hr).1
    exact hrest ▸ List.suffix_rfl
  append_error hr hne us := by
    obtain ⟨hrest, hrefused⟩ := h.refused hr
    rcases hrefused with ⟨hnil, -⟩ | ⟨t, vs, hcons, -, hstays⟩
    · exact absurd (hrest.trans hnil) hne
    · rw [hrest, hcons]
      exact hstays (vs ++ us)
  endOfInput hr := by
    obtain ⟨hrest, hrefused⟩ := h.refused hr
    rcases hrefused with ⟨-, he⟩ | ⟨t, vs, hcons, -, -⟩
    · exact ⟨needed, he⟩
    · cases hrest.trans hcons
  conclusive hr hkind := by
    obtain ⟨hrest, hrefused⟩ := h.refused hr
    rcases hrefused with ⟨hnil, -⟩ | ⟨t, vs, hcons, he, -⟩
    · cases hrest.trans hnil
    · have ht := (List.cons.inj (hrest.trans hcons)).1
      rw [he (ht ▸ hkind)]
      exact hfault t

end

theorem local_refuse (needed : TokenKind) {fault : Token → Fault}
    (hfault : ∀ t, (fault t).Conclusive) :
    Local (refuse needed fault : Reading α) :=
  TakesFront.isLocal ⟨rfl, fun _ _ => .inr fun _ => rfl⟩ hfault

theorem takesFront_textOnLine (kind : TokenKind) (production : Production) :
    TakesFront (textOnLine kind production) kind
      fun t => .expected kind production t.describe := by
  refine ⟨rfl, fun t ts => ?_⟩
  by_cases hkind : t.kind = kind
  · have htaken : ∀ us, textOnLine kind production (t :: us) =
        .ok (t.text, us) := fun us => by rw [textOnLine, if_pos hkind]
    exact .inl ⟨t.text, ts, htaken ts, List.suffix_cons t ts,
      fun _ us => htaken (ts ++ us)⟩
  · refine .inr fun us => ?_
    rw [textOnLine, if_neg hkind]
    exact Composed.mismatch_eq kind _ (t :: us)

theorem local_textOnLine (kind : TokenKind) (production : Production) :
    Local (textOnLine kind production) :=
  (takesFront_textOnLine kind production).isLocal fun _ => trivial

theorem constantValue_of_word {t : Token} (hword : t.kind = .identifier)
    (ts : List Token) :
    constantValue (t :: ts) =
      .ok (valueText ((t :: ts).takeWhile inValue),
        (t :: ts).dropWhile inValue) := by
  simp only [constantValue, hword]

theorem constantValue_of_literal {t : Token} (hliteral : t.kind = .literal)
    (ts : List Token) :
    constantValue (t :: ts) =
      .ok ("\"" ++ valueText ((t :: ts).takeWhile inValue) ++ "\"",
        (t :: ts).dropWhile inValue) := by
  simp only [constantValue, hliteral]

theorem constantValue_of_other {t : Token} (hword : t.kind ≠ .identifier)
    (hliteral : t.kind ≠ .literal) (ts : List Token) :
    constantValue (t :: ts) = refuse .identifier
      (fun t => .expected .identifier .constantValue t.describe) (t :: ts) := by
  rw [← Composed.mismatch_eq]
  simp only [constantValue]
  rfl

theorem takesFront_constantValue :
    TakesFront constantValue .identifier
      fun t => .expected .identifier .constantValue t.describe := by
  refine ⟨rfl, fun t ts => ?_⟩
  have htake : (t :: ts).dropWhile inValue ≠ [] → ∀ us,
      (t :: (ts ++ us)).takeWhile inValue = (t :: ts).takeWhile inValue :=
    fun hne us => takeWhile_append_of_ne_nil hne us
  have hdrop : (t :: ts).dropWhile inValue ≠ [] → ∀ us,
      (t :: (ts ++ us)).dropWhile inValue =
        (t :: ts).dropWhile inValue ++ us :=
    fun hne us => dropWhile_append_of_ne_nil hne us
  by_cases hword : t.kind = .identifier
  · refine .inl ⟨_, _, constantValue_of_word hword ts,
      List.dropWhile_suffix _, fun hne us => ?_⟩
    rw [constantValue_of_word hword, htake hne, hdrop hne]
  · by_cases hliteral : t.kind = .literal
    · refine .inl ⟨_, _, constantValue_of_literal hliteral ts,
        List.dropWhile_suffix _, fun hne us => ?_⟩
      rw [constantValue_of_literal hliteral, htake hne, hdrop hne]
    · exact .inr fun us => constantValue_of_other hword hliteral us

theorem local_constantValue : Local constantValue :=
  takesFront_constantValue.isLocal fun _ => trivial

end

/-! ## The property passes on -/

theorem Local.bind {α β : Type} {r : Reading α} {f : α → Reading β}
    (hr : Local r) (hf : ∀ x, Local (f x)) : Local (r >>= f) where
  suffix_ok h := by
    obtain ⟨x, mid, hx, hy⟩ := reading_bind_eq_ok.mp h
    exact ((hf x).suffix_ok hy).trans (hr.suffix_ok hx)
  suffix_error h := by
    obtain h | ⟨x, mid, hx, hy⟩ := reading_bind_eq_error.mp h
    · exact hr.suffix_error h
    · exact ((hf x).suffix_error hy).trans (hr.suffix_ok hx)
  append_ok h hne us := by
    obtain ⟨x, mid, hx, hy⟩ := reading_bind_eq_ok.mp h
    have hmid : mid ≠ [] := by
      rintro rfl
      exact hne (List.suffix_nil.mp ((hf x).suffix_ok hy))
    rw [reading_bind_eq_of_ok (hr.append_ok hx hmid us)]
    exact (hf x).append_ok hy hne us
  append_error h hne us := by
    obtain h | ⟨x, mid, hx, hy⟩ := reading_bind_eq_error.mp h
    · exact reading_bind_eq_of_error (hr.append_error h hne us)
    · have hmid : mid ≠ [] := by
        rintro rfl
        exact hne (List.suffix_nil.mp ((hf x).suffix_error hy))
      rw [reading_bind_eq_of_ok (hr.append_ok hx hmid us)]
      exact (hf x).append_error hy hne us
  endOfInput h := by
    obtain h | ⟨x, mid, -, hy⟩ := reading_bind_eq_error.mp h
    · exact hr.endOfInput h
    · exact (hf x).endOfInput hy
  conclusive h := by
    obtain h | ⟨x, mid, -, hy⟩ := reading_bind_eq_error.mp h
    · exact hr.conclusive h
    · exact (hf x).conclusive hy

theorem Local.limit {α : Type} {r : Reading α} {s : Nat → Reading α}
    (hs : ∀ n, Local (s n))
    (hagree : ∀ n ts, ts.length < n → s n ts = r ts) : Local r := by
  have hat : ∀ ts : List Token, s (ts.length + 1) ts = r ts := fun ts =>
    hagree _ ts (Nat.lt_succ_self _)
  have hboth : ∀ ts us : List Token,
      s ((ts ++ us).length + 1) ts = r ts := fun ts us =>
    hagree _ ts (by simp only [List.length_append]; omega)
  constructor
  · intro ts x rest h
    rw [← hat] at h
    exact (hs _).suffix_ok h
  · intro ts fault rest h
    rw [← hat] at h
    exact (hs _).suffix_error h
  · intro ts x rest h hne us
    rw [← hboth ts us] at h
    rw [← hat]
    exact (hs _).append_ok h hne us
  · intro ts fault rest h hne us
    rw [← hboth ts us] at h
    rw [← hat]
    exact (hs _).append_error h hne us
  · intro ts fault h
    rw [← hat] at h
    exact (hs _).endOfInput h
  · intro ts fault t rest h
    rw [← hat] at h
    exact (hs _).conclusive h

theorem Composed.isLocal {α : Type} {r : Reading α} (h : Composed r) :
    Local r := by
  induction h with
  | pure x => exact local_pure x
  | bind _ _ hr hf => exact hr.bind hf
  | textOnLine kind production => exact local_textOnLine kind production
  | nextLine => exact local_nextLine
  | ahead kind => exact local_ahead kind
  | place => exact local_place
  | eat => exact local_eat _
  | eatWord word => exact local_eatWord word
  | takeAny => exact local_takeAny
  | skipCommas => exact local_skipCommas
  | constantValue => exact local_constantValue
  | refuse needed hfault => exact local_refuse needed hfault
  | limit _ hagree hs => exact .limit hs hagree

/-! ## Faults of readings -/

/-- Scopes are none of a reading's business. -/
def Fault.OfReading (fault : Fault) : Prop :=
  fault.Conclusive ∨ ∃ kind, fault = .endOfInput kind

theorem TakesFront.ofReading {α : Type} {r : Reading α} {needed : TokenKind}
    {fault : Token → Fault} (h : TakesFront r needed fault)
    (hfault : ∀ t, (fault t).Conclusive) {ts : List Token} {e : Failure}
    (hr : r ts = .error e) : e.fault.OfReading := by
  cases ts with
  | nil =>
      rw [h.nil] at hr
      cases hr
      exact .inr ⟨needed, rfl⟩
  | cons t ts =>
      rcases h.cons t ts with ⟨x, rest, hok, -⟩ | hrefuse
      · rw [hok] at hr
        cases hr
      · rw [hrefuse] at hr
        cases hr
        by_cases hend : t.kind = .endOfInput
        · exact .inr ⟨needed, if_pos hend⟩
        · exact .inl (by simpa only [if_neg hend] using hfault t)

theorem Composed.ofReading {α : Type} {r : Reading α} (h : Composed r)
    {ts : List Token} {e : Failure} (hr : r ts = .error e) :
    e.fault.OfReading := by
  induction h generalizing ts with
  | pure x => cases hr
  | bind _ _ hfirst hsecond =>
      obtain hr | ⟨x, mid, -, hr⟩ := reading_bind_eq_error.mp hr
      · exact hfirst hr
      · exact hsecond x hr
  | textOnLine kind production =>
      exact (takesFront_textOnLine kind production).ofReading
        (fun _ => trivial) hr
  | nextLine => cases hr
  | ahead kind => cases hr
  | place => cases hr
  | eat =>
      unfold Idl.eat at hr
      split at hr <;> cases hr
  | eatWord word =>
      unfold Idl.eatWord at hr
      split at hr <;> cases hr
  | takeAny => cases hr
  | skipCommas => cases hr
  | constantValue =>
      exact takesFront_constantValue.ofReading (fun _ => trivial) hr
  | refuse needed hfault =>
      exact TakesFront.ofReading ⟨rfl, fun _ _ => .inr fun _ => rfl⟩ hfault hr
  | limit _ hagree hs =>
      rw [← hagree _ ts (Nat.lt_succ_self _)] at hr
      exact hs _ hr

end Idl
