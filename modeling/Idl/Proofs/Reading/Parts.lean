import Idl.Proofs.Reading.Completion

/-!
# The parts of readings can be completed

What completes a single token, a choice by the next token, and a sequence of
items.  A choice is made at the end of the input as well, and there it goes
the way that does not need the token, so that token must not come next.
-/

namespace Idl

/-! ## Single tokens -/

theorem eat?_append_of_ended {kind : TokenKind} {kinds : List TokenKind}
    {ts us : List Token} (h : eat? kind ts = some [])
    (hus : Stopped kinds us) : eat? kind (ts ++ us) = some us := by
  cases ts with
  | nil => cases h
  | cons t ts =>
      rw [eat?] at h
      split at h
      next hkind =>
        have hlines : skipLines ts = [] := by simpa using h
        rw [List.cons_append, eat?, if_pos hkind,
          skipLines_append_of_nil hlines hus]
      next => cases h

theorem eatWord?_append_of_ended {word : String} {kinds : List TokenKind}
    {ts us : List Token} (h : eatWord? word ts = some [])
    (hus : Stopped kinds us) : eatWord? word (ts ++ us) = some us := by
  cases ts with
  | nil => cases h
  | cons t ts =>
      rw [eatWord?] at h
      split at h
      next hword =>
        have hlines : skipLines ts = [] := by simpa using h
        rw [List.cons_append, eatWord?, if_pos hword,
          skipLines_append_of_nil hlines hus]
      next => cases h

theorem skipLines_of_stopped {kinds : List TokenKind} {us : List Token}
    (hus : Stopped kinds us) : skipLines us = us :=
  @skipLines_append_of_nil kinds [] us rfl hus

theorem completes_expect {kind : TokenKind} (hline : kind ≠ .endLine)
    (production : Production) : Completes [] 0 0 1 (expect kind production) := by
  refine .of_token (.expect hline production) ⟨kind, "", .point 0⟩
    ⟨by simp, hline, by simp [Token.isWord]⟩ () rfl ?_ ?_ ?_
  · intro t ts e h
    rw [Composed.expect_eq, Composed.eat_choice_cons] at h
    split at h
    next => cases h
    next => simp [refuse] at h
  · intro us hus
    rw [expect, eat?, if_pos rfl, skipLines_of_stopped hus]
  · intro t ts x h us hus
    rw [← List.cons_append]
    unfold expect at h ⊢
    split at h
    next => cases h
    next rest heat =>
      cases h
      rw [eat?_append_of_ended heat hus]

theorem completes_expectWord {word : String} (hword : word ≠ "long")
    {fault : String → Fault} (hfault : ∀ found, (fault found).Conclusive) :
    Completes [] 0 0 1 (expectWord word fault) := by
  refine .of_token (.expectWord word hfault) ⟨.identifier, word, .point 0⟩
    ⟨by simp, by simp, by simp [Token.isWord, hword]⟩ () rfl ?_ ?_ ?_
  · intro t ts e h
    rw [Composed.expectWord_eq, Composed.eatWord_choice_cons] at h
    split at h
    next => cases h
    next => simp [refuse] at h
  · intro us hus
    rw [expectWord, eatWord?, if_pos (by simp [Token.isWord]),
      skipLines_of_stopped hus]
  · intro t ts x h us hus
    rw [← List.cons_append]
    unfold expectWord at h ⊢
    split at h
    next => cases h
    next rest heat =>
      cases h
      rw [eatWord?_append_of_ended heat hus]

theorem completes_textOnLine {kind : TokenKind} (hline : kind ≠ .endLine)
    (production : Production) :
    Completes [] 0 0 1 (textOnLine kind production) := by
  refine .of_token (.textOnLine kind production) ⟨kind, "x", .point 0⟩
    ⟨by simp, hline, by simp [Token.isWord]⟩ "x" rfl ?_ ?_ ?_
  · intro t ts e h
    rw [textOnLine] at h
    split at h
    next => cases h
    next hkind =>
      rw [Failure.expected, Failure.mismatch] at h
      split at h <;> cases h
  · intro us _
    rw [textOnLine, if_pos rfl]
  · intro t ts x h us _
    rw [textOnLine] at h
    split at h
    next hkind =>
      cases h
      rw [textOnLine, if_pos hkind]
      rfl
    next => cases h

theorem completes_nextLine : Completes [] 0 0 0 nextLine := by
  refine .of_total .nextLine (fun ts e h => by cases h) ?_
  intro ts x h us hus
  obtain ⟨-, hlines⟩ : () = x ∧ skipLines ts = [] := by
    simpa [nextLine] using h
  rw [nextLine, skipLines_append_of_nil hlines hus]

theorem completes_word (production : Production) :
    Completes [] 0 0 1 (word production) :=
  ((completes_textOnLine (by decide) production).seq fun text =>
    completes_nextLine.result fun _ => text).mono (by decide)

theorem completes_eat {kind : TokenKind} (hline : kind ≠ .endLine) :
    Completes [kind] 0 0 0 (eat kind) := by
  refine .of_total (.eat hline) ?_ ?_
  · intro ts e h
    unfold eat at h
    split at h <;> cases h
  · intro ts x h us hus
    unfold eat at h ⊢
    split at h
    next heat =>
      cases h
      have hnone : eat? kind us = none := by
        cases us with
        | nil => rfl
        | cons u us =>
            have hu := (hus u rfl).kind
            rw [List.mem_singleton] at hu
            rw [eat?, if_neg hu]
      rw [List.nil_append, hnone]
    next rest heat =>
      cases h
      rw [eat?_append_of_ended heat hus]

/-- A second half of a name is not taken where none follows. -/
theorem completes_eatWord_long : Completes [] 0 0 0 (eatWord "long") := by
  refine .of_total (.eatWord "long") ?_ ?_
  · intro ts e h
    unfold eatWord at h
    split at h <;> cases h
  · intro ts x h us hus
    unfold eatWord at h ⊢
    split at h
    next heat =>
      cases h
      have hnone : eatWord? "long" us = none := by
        cases us with
        | nil => rfl
        | cons u us =>
            have hu := (hus u rfl).long
            rw [eatWord?, if_neg (by simp [hu])]
      rw [List.nil_append, hnone]
    next rest heat =>
      cases h
      rw [eatWord?_append_of_ended heat hus]

theorem completes_skipCommas : Completes [.comma] 0 0 0 skipCommas := by
  refine .of_total .skipCommas (fun ts e h => by cases h) ?_
  intro ts x h us hus
  have hdrop : (ts.dropWhile fun t => t.kind == .comma || t.kind == .endLine) =
      [] := by
    simpa [skipCommas] using h
  have hnot : ∀ t ∈ us.head?,
      (t.kind == .comma || t.kind == .endLine) = false := by
    intro t ht
    have hkind := (hus t ht).kind
    have hline := (hus t ht).line
    rw [List.mem_singleton] at hkind
    simp [hkind, hline]
  rw [skipCommas, dropWhile_append_of_nil hdrop hnot]

theorem inValue_of_stops {t : Token}
    (h : Stops [.identifier, .literal, .less] t) : inValue t = false := by
  have hkind := h.kind
  have hline := h.line
  simp only [List.mem_cons, List.not_mem_nil, or_false, not_or] at hkind
  simp [inValue, hkind, hline]

theorem takeWhile_append_of_stopped {p : Token → Bool} {ts us : List Token}
    (hts : ts.dropWhile p = []) (hus : ∀ t ∈ us.head?, p t = false) :
    (ts ++ us).takeWhile p = ts.takeWhile p := by
  induction ts with
  | nil =>
      cases us with
      | nil => rfl
      | cons u us =>
          have hu : ¬ p u = true := by simp [hus u rfl]
          simp [List.takeWhile_cons_of_neg hu]
  | cons t ts ih =>
      by_cases ht : p t = true
      · rw [List.dropWhile_cons_of_pos ht] at hts
        rw [List.cons_append, List.takeWhile_cons_of_pos ht,
          List.takeWhile_cons_of_pos ht, ih hts]
      · rw [List.dropWhile_cons_of_neg ht] at hts
        cases hts

theorem completes_constantValue :
    Completes [.identifier, .literal, .less] 0 0 1 constantValue := by
  refine .of_token .constantValue ⟨.identifier, "x", .point 0⟩
    ⟨by simp, by simp, by simp [Token.isWord]⟩ "x" rfl ?_ ?_ ?_
  · intro t ts e h
    cases (takesFront_constantValue.refused h).1
  · intro us hus
    have hnot : ∀ t ∈ us.head?, inValue t = false := fun t ht =>
      inValue_of_stops (hus t ht)
    have hone : [(⟨.identifier, "x", .point 0⟩ : Token)].dropWhile inValue = [] :=
      rfl
    rw [constantValue_of_word rfl, ← List.singleton_append,
      takeWhile_append_of_stopped hone hnot, dropWhile_append_of_nil hone hnot]
    rfl
  · intro t ts x h us hus
    have hnot : ∀ t ∈ us.head?, inValue t = false := fun t ht =>
      inValue_of_stops (hus t ht)
    by_cases hword : t.kind = .identifier
    · rw [constantValue_of_word hword] at h
      simp only [Except.ok.injEq, Prod.mk.injEq] at h
      rcases h with ⟨htext, hdrop⟩
      rw [constantValue_of_word hword, ← List.cons_append,
        takeWhile_append_of_stopped hdrop hnot,
        dropWhile_append_of_nil hdrop hnot, htext]
    · by_cases hliteral : t.kind = .literal
      · rw [constantValue_of_literal hliteral] at h
        simp only [Except.ok.injEq, Prod.mk.injEq] at h
        rcases h with ⟨htext, hdrop⟩
        rw [constantValue_of_literal hliteral, ← List.cons_append,
          takeWhile_append_of_stopped hdrop hnot,
          dropWhile_append_of_nil hdrop hnot, htext]
      · rw [constantValue_of_other hword hliteral] at h
        cases h

/-- A parameter that is completed is an input. -/
theorem completes_readDirection : Completes [] 0 0 1 readDirection := by
  refine .of_token .readDirection ⟨.identifier, "in", .point 0⟩
    ⟨by simp, by simp, by simp [Token.isWord]⟩ .input rfl ?_ ?_ ?_
  · intro t ts e h
    rw [readDirection] at h
    split at h
    · split at h <;> cases h
    · rw [Failure.expected, Failure.mismatch] at h
      split at h <;> cases h
  · intro us hus
    rw [readDirection, if_pos rfl, skipLines_of_stopped hus]
    rfl
  · intro t ts x h us hus
    rw [readDirection] at h
    split at h
    next hkind =>
      split at h
      next => cases h
      next direction hword =>
        simp only [Except.ok.injEq, Prod.mk.injEq] at h
        rcases h with ⟨hx, hlines⟩
        rw [readDirection, if_pos hkind, hword,
          skipLines_append_of_nil hlines hus, hx]
    next => cases h

/-! ## Choices -/

section
variable {α : Type} {kind : TokenKind} {kinds : List TokenKind} {n : Nat}
  {r s q : Reading α} {ts us : List Token}

theorem CompletesAt.congr (h : CompletesAt kinds n q us)
    (hsame : ∀ vs, r (ts ++ vs) = q (us ++ vs)) :
    CompletesAt kinds n r ts := by
  have hhere : r ts = q us := by simpa using hsame []
  constructor
  · intro x hr vs hvs
    rw [hhere] at hr
    rw [hsame]
    exact h.ended hr vs hvs
  · intro needed hr
    rw [hhere] at hr
    obtain ⟨t, more, x, hkind, hstops, hlength, hread⟩ := h.completed hr
    refine ⟨t, more, x, hkind, hstops, hlength, fun vs hvs => ?_⟩
    rw [hsame]
    exact hread vs hvs

theorem completesAt_of_error {e : Failure} (hr : r ts = .error e)
    (hrest : e.rest ≠ []) : CompletesAt kinds n r ts := by
  constructor
  · intro x h
    rw [hr] at h
    cases h
  · intro needed h
    rw [hr] at h
    cases h
    exact absurd rfl hrest

/-- The line ends behind a token that is taken do not matter. -/
theorem CompletesAt.behind {t : Token} (hr : Composed r)
    (h : CompletesAt kinds n r (skipLines ts))
    (htaken : ∀ vs, q (t :: vs) = r (skipLines vs)) :
    CompletesAt kinds n q (t :: ts) := by
  have hnext : CompletesAt [] 0 nextLine ts :=
    completes_nextLine.anywhere (Nat.le_refl 0) (Nat.le_refl 0)
  have hline : CompletesAt kinds n (nextLine >>= fun _ => r) ts := by
    have hle : 0 + 0 ≤ n := Nat.zero_le n
    refine hnext.bind Composed.nextLine.isLocal (fun x mid hx => ?_)
      (fun e he => by cases he) (fun _ _ => meets_nil hr)
      (List.Subset.refl _) hle
    cases hx
    exact h
  exact hline.congr fun vs => by rw [List.cons_append, htaken]; rfl

theorem CompletesAt.passed (hs : CompletesAt kinds n s [])
    (hmeets : Meets [kind] kinds s) (hnil : q [] = s [])
    (hpassed : ∀ t us, t.kind ≠ kind → q (t :: us) = s (t :: us)) :
    CompletesAt kinds n q [] := by
  have hstopped : ∀ vs, Stopped [kind] vs → q vs = s vs := by
    intro vs hvs
    cases vs with
    | nil => exact hnil
    | cons v vs =>
        have hkind := (hvs v rfl).kind
        rw [List.mem_singleton] at hkind
        exact hpassed v vs hkind
  constructor
  · intro x h vs hvs
    rw [hnil] at h
    rw [List.nil_append, hstopped vs (hmeets.stopped_of_ok h hvs)]
    exact hs.ended h vs hvs
  · intro needed h
    rw [hnil] at h
    obtain ⟨t, more, x, hkind, hstops, hlength, hread⟩ := hs.completed h
    refine ⟨t, more, x, hkind, hstops, hlength, fun vs hvs => ?_⟩
    rw [List.nil_append,
      hstopped _ (hmeets.stopped h hkind hstops (more ++ vs))]
    exact hread vs hvs

theorem CompletesAt.eat_choice (hcomposed : Composed r)
    (hr : ∀ mid, mid.length < ts.length → CompletesAt kinds n r mid)
    (hs : CompletesAt kinds n s ts)
    (hmeets : ts = [] → Meets [kind] kinds s) :
    CompletesAt kinds n (do if ← eat kind then r else s) ts := by
  cases ts with
  | nil =>
      refine hs.passed (hmeets rfl) rfl fun t us hkind => ?_
      rw [Composed.eat_choice_cons, if_neg hkind]
  | cons t ts =>
      by_cases hkind : t.kind = kind
      · have hlength := skipLines_length_le ts
        refine (hr (skipLines ts) ?_).behind hcomposed fun vs => ?_
        · rw [List.length_cons]
          omega
        · rw [Composed.eat_choice_cons, if_pos hkind]
      · refine hs.congr fun vs => ?_
        rw [List.cons_append, Composed.eat_choice_cons, if_neg hkind]

/-- In front of a token a choice by a word is like any other; at the end of
the input the word may be the one that is asked for. -/
theorem CompletesAt.eatWord_choice {word : String} {t : Token}
    (hcomposed : Composed r)
    (hr : t.isWord word → ∀ mid, mid.length ≤ ts.length →
      CompletesAt kinds n r mid) (hs : CompletesAt kinds n s (t :: ts)) :
    CompletesAt kinds n (do if ← eatWord word then r else s) (t :: ts) := by
  by_cases hword : t.isWord word
  · refine (hr hword _ (skipLines_length_le ts)).behind hcomposed fun vs => ?_
    rw [Composed.eatWord_choice_cons, if_pos hword]
  · refine hs.congr fun vs => ?_
    rw [List.cons_append, Composed.eatWord_choice_cons, if_neg hword]

theorem CompletesAt.ahead_choice
    (hr : ts ≠ [] → CompletesAt kinds n r ts) (hs : CompletesAt kinds n s ts)
    (hmeets : ts = [] → Meets [kind] kinds s) :
    CompletesAt kinds n (do if ← ahead kind then r else s) ts := by
  cases ts with
  | nil =>
      refine hs.passed (hmeets rfl) rfl fun t us hkind => ?_
      rw [Composed.ahead_choice_cons, if_neg hkind]
  | cons t ts =>
      by_cases hkind : t.kind = kind
      · have hread := hr (List.cons_ne_nil t ts)
        apply hread.congr
        intro vs
        rw [List.cons_append, Composed.ahead_choice_cons, if_pos hkind]
      · refine hs.congr fun vs => ?_
        rw [List.cons_append, Composed.ahead_choice_cons, if_neg hkind]

end

section
variable {α : Type} {kind : TokenKind} {first kinds : List TokenKind}
  {f₁ d₁ e₁ f₂ d₂ e₂ : Nat} {r s : Reading α}

theorem Completes.eat_choice (hline : kind ≠ .endLine)
    (hr : Completes first f₁ d₁ e₁ r) (hs : Completes kinds f₂ d₂ e₂ s)
    (hfirst : first ⊆ kinds) (hmeets : Meets [kind] kinds s) :
    Completes kinds (max (max f₁ e₁) f₂) (max d₁ d₂) e₂
      (do if ← eat kind then r else s) where
  composed := (Composed.eat hline).bind fun _ => hr.composed.choice hs.composed
  general t ts := by
    have hle := le_needs (max (max f₁ e₁) f₂) (max d₁ d₂) (t :: ts).length
    refine .eat_choice hr.composed (fun mid hmid => ?_) ?_ fun _ => hmeets
    · exact (hr.anywhere (by omega) (needs_mono (by omega)
        (Nat.le_max_left _ _) (Nat.le_of_lt hmid))).mono hfirst (Nat.le_refl _)
    · exact (hs.general t ts).mono (List.Subset.refl _)
        (needs_mono (by omega) (by omega) (Nat.le_refl _))
  fresh := .eat_choice hr.composed (fun mid hmid => absurd hmid (by simp))
    hs.fresh fun _ => hmeets

theorem Completes.ahead_choice (hr : Completes first f₁ d₁ e₁ r)
    (hs : Completes kinds f₂ d₂ e₂ s) (hfirst : first ⊆ kinds)
    (hmeets : Meets [kind] kinds s) :
    Completes kinds (max f₁ f₂) (max d₁ d₂) e₂
      (do if ← ahead kind then r else s) where
  composed := (Composed.ahead kind).bind fun _ =>
    hr.composed.choice hs.composed
  general t ts := by
    refine .ahead_choice (fun _ => ?_) ?_ fun _ => hmeets
    · exact (hr.general t ts).mono hfirst
        (needs_mono (by omega) (by omega) (Nat.le_refl _))
    · exact (hs.general t ts).mono (List.Subset.refl _)
        (needs_mono (by omega) (by omega) (Nat.le_refl _))
  fresh := .ahead_choice (fun hne => absurd rfl hne) hs.fresh fun _ => hmeets

end

/-! ## Sequences -/

section
variable {α : Type} {separator kind : TokenKind} {kinds : List TokenKind}
  {f d e : Nat} {item : Reading α}

theorem followed_nil (hconsumes : Consumes item) :
    followed separator item hconsumes [] = .ok ([], []) := by
  rw [followed_eq]
  rfl

theorem followed_cons_nil (hconsumes : Consumes item) (x : α) :
    (followed separator item hconsumes >>= fun xs => pure (x :: xs)) [] =
      .ok ([x], []) := by
  rw [reading_bind_eq_of_ok (followed_nil hconsumes)]
  rfl

theorem completesAt_followed_nil (hline : separator ≠ .endLine)
    (hconsumes : Consumes item)
    (hitem : Composed item) {n : Nat} :
    CompletesAt (separator :: kinds) n
      (followed separator item hconsumes) [] := by
  have hidle : Meets [separator] (separator :: kinds)
      (pure [] : Reading (List α)) := .idle rfl (by simp)
  rw [followed_eq]
  refine .eat_choice (hitem.bind fun x => ?_) (fun mid hmid => ?_)
    (completesAt_pure []) fun _ => hidle
  · exact (Composed.followed hline hconsumes hitem).bind fun xs => .pure _
  · exact absurd hmid (Nat.not_lt_zero _)

/-- Where a separator has been taken the next item is completed, and no more
items follow. -/
theorem completesAt_followed (hline : separator ≠ .endLine)
    (hconsumes : Consumes item) (hitem : Completes kinds f d e item)
    (ts : List Token) :
    CompletesAt (separator :: kinds) (needs (max f e) d ts.length)
      (followed separator item hconsumes) ts := by
  have hsub : kinds ⊆ separator :: kinds := List.subset_cons_self _ _
  have hidle : Meets [separator] (separator :: kinds)
      (pure [] : Reading (List α)) := .idle rfl (by simp)
  have hcomposed := Composed.followed hline hconsumes hitem.composed
  induction hlength : ts.length using Nat.strongRecOn generalizing ts with
  | ind n ih =>
      have hflat := le_needs (max f e) d n
      rw [followed_eq]
      refine .eat_choice (hitem.composed.bind fun x =>
        hcomposed.bind fun xs => .pure _) (fun mid hmid => ?_)
        (completesAt_pure []) fun _ => hidle
      have hhere : CompletesAt kinds (needs (max f e) d n) item mid :=
        hitem.anywhere (by omega)
          (needs_mono (Nat.le_max_left _ _) (Nat.le_refl _) (by omega))
      have hlast : needs (max f e) d n + 0 ≤ needs (max f e) d n :=
        Nat.le_refl _
      refine hhere.bind hitem.composed.isLocal
        (fun x rest hx => ?_) (fun _ _ x => ?_) (fun x _ => ?_)
        (List.Subset.refl _) hlast
      · have hrest := hconsumes mid x rest hx
        have hfollowed := ih rest.length (by omega) rest rfl
        exact (hfollowed.mono (List.Subset.refl _)
          (needs_mono (Nat.le_refl _) (Nat.le_refl _) (by omega))).result _
      · exact (completesAt_followed_nil hline hconsumes hitem.composed).result _
      · exact .idle (followed_cons_nil hconsumes x) hsub

theorem completes_followed (hline : separator ≠ .endLine)
    (hconsumes : Consumes item) (hitem : Completes kinds f d e item) :
    Completes (separator :: kinds) (max f e) d 0
      (followed separator item hconsumes) where
  composed := .followed hline hconsumes hitem.composed
  general _ _ := completesAt_followed hline hconsumes hitem _
  fresh := completesAt_followed_nil hline hconsumes hitem.composed

theorem completes_separated (hline : separator ≠ .endLine)
    (hconsumes : Consumes item) (hitem : Completes kinds f d e item) :
    Completes (separator :: kinds) (max f e) d e
      (separated separator item hconsumes) := by
  have hfollowed := completes_followed hline hconsumes hitem
  have hraised : raised d 0 = d := by
    unfold raised
    split <;> omega
  refine (hitem.bind (fun x => hfollowed.result _) (fun x => ?_)
    (List.Subset.refl _)).mono ⟨List.Subset.refl _, by omega, by omega, by omega⟩
  exact .idle (followed_cons_nil hconsumes x) (List.subset_cons_self _ _)

end

end Idl
