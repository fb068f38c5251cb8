import Idl.Proofs.Reading.Local

/-!
# Readings that run out of tokens can be completed

A reading that fails because the input ends asks for a token of some kind.
With such a token, and some more, it succeeds; and a reading that has used up
its stream still does the same when tokens follow that cannot be meant for it.
Which tokens these are depends on the reading: an optional part that is
missing would be taken if the token that starts it came next.

Both facts pass through sequencing.  What completes the first reading does not
start with a token that the second could be confused by, and behind it the
second reading is completed from nothing.  The number of tokens that are needed
grows with the stream, because a template that is open may need its closing
bracket and one more word.  It has cost two tokens itself, so beyond what the
stream has, a constant is enough (`needs`).
-/

namespace Idl

/-- The token continues nothing: its kind is none of those given, and it is
neither a line end nor the second half of a name. -/
structure Stops (kinds : List TokenKind) (t : Token) : Prop where
  kind : t.kind ∉ kinds
  line : t.kind ≠ .endLine
  long : t.isWord "long" = false

/-- The stream starts with nothing that would be continued with. -/
def Stopped (kinds : List TokenKind) (ts : List Token) : Prop :=
  ∀ t ∈ ts.head?, Stops kinds t

/-- On this stream the reading can go on: where it has used the stream up it
does not mind what follows, and where the stream has ended too early at most
the given number of tokens completes it. -/
structure CompletesAt {α : Type} (kinds : List TokenKind) (n : Nat)
    (r : Reading α) (ts : List Token) : Prop where
  ended : ∀ {x}, r ts = .ok (x, []) → ∀ us, Stopped kinds us →
    r (ts ++ us) = .ok (x, us)
  completed : ∀ {kind}, r ts = .error ⟨.endOfInput kind, []⟩ →
    ∃ t us x, t.kind = kind ∧ Stops [] t ∧ (t :: us).length ≤ n ∧
      ∀ vs, Stopped kinds vs → r (ts ++ t :: (us ++ vs)) = .ok (x, vs)

/-- How a reading takes the end of the input: it asks for a token that is none
of those the reading before it would continue with, or it asks for none. -/
inductive Meets {α : Type} (before kinds : List TokenKind) (r : Reading α) :
    Prop where
  | demand {kind : TokenKind} (h : r [] = .error ⟨.endOfInput kind, []⟩)
      (hkind : kind ∉ before)
  | idle {x : α} (h : r [] = .ok (x, [])) (hsub : before ⊆ kinds)

theorem Stops.mono {kinds more : List TokenKind} {t : Token}
    (hsub : kinds ⊆ more) (h : Stops more t) : Stops kinds t :=
  ⟨fun hkind => h.kind (hsub hkind), h.line, h.long⟩

theorem Stopped.mono {kinds more : List TokenKind} {ts : List Token}
    (hsub : kinds ⊆ more) (h : Stopped more ts) : Stopped kinds ts :=
  fun t ht => (h t ht).mono hsub

theorem stopped_cons {kinds : List TokenKind} {t : Token} {ts : List Token}
    (h : Stops [] t) (hkind : t.kind ∉ kinds) : Stopped kinds (t :: ts) := by
  intro u hu
  cases hu
  exact ⟨hkind, h.line, h.long⟩

/-! ## Sequences -/

section
variable {α β : Type}

theorem CompletesAt.mono {kinds more : List TokenKind} {n m : Nat}
    {r : Reading α} {ts : List Token} (h : CompletesAt kinds n r ts)
    (hsub : kinds ⊆ more) (hle : n ≤ m) : CompletesAt more m r ts where
  ended hr us hus := h.ended hr us (hus.mono hsub)
  completed hr := by
    obtain ⟨t, us, x, hkind, hstops, hlength, hread⟩ := h.completed hr
    exact ⟨t, us, x, hkind, hstops, Nat.le_trans hlength hle,
      fun vs hvs => hread vs (hvs.mono hsub)⟩

theorem Meets.stopped {before kinds : List TokenKind} {r : Reading α}
    (h : Meets before kinds r) {kind : TokenKind}
    (hr : r [] = .error ⟨.endOfInput kind, []⟩) {t : Token}
    (hkind : t.kind = kind) (hstops : Stops [] t) (ts : List Token) :
    Stopped before (t :: ts) := by
  cases h with
  | demand hdemand hnot =>
      rw [hr] at hdemand
      cases hdemand
      exact stopped_cons hstops (hkind ▸ hnot)
  | idle hidle =>
      rw [hr] at hidle
      cases hidle

theorem Meets.stopped_of_ok {before kinds : List TokenKind} {r : Reading α}
    (h : Meets before kinds r) {x : α} (hr : r [] = .ok (x, []))
    {us : List Token} (hus : Stopped kinds us) : Stopped before us := by
  cases h with
  | demand hdemand =>
      rw [hr] at hdemand
      cases hdemand
  | idle _ hsub => exact hus.mono hsub

theorem CompletesAt.bind {first second kinds : List TokenKind}
    {n₁ n₂ n : Nat} {r : Reading α} {f : α → Reading β} {ts : List Token}
    (hlocal : Local r) (hr : CompletesAt first n₁ r ts)
    (hf : ∀ x mid, r ts = .ok (x, mid) → CompletesAt second n (f x) mid)
    (hfresh : ∀ e, r ts = .error e → ∀ x, CompletesAt second n₂ (f x) [])
    (hmeets : ∀ x, (r ts = .ok (x, []) ∨ ∃ e, r ts = .error e) →
      Meets first kinds (f x))
    (hsub : second ⊆ kinds) (hle : n₁ + n₂ ≤ n) :
    CompletesAt kinds n (r >>= f) ts where
  ended := by
    intro y h us hus
    obtain ⟨x, mid, hx, hy⟩ := reading_bind_eq_ok.mp h
    have hgo := (hf x mid hx).ended hy us (hus.mono hsub)
    by_cases hmid : mid = []
    · subst hmid
      have hstopped := (hmeets x (.inl hx)).stopped_of_ok hy hus
      rw [reading_bind_eq_of_ok (hr.ended hx us hstopped)]
      exact hgo
    · rw [reading_bind_eq_of_ok (hlocal.append_ok hx hmid us)]
      exact hgo
  completed := by
    intro kind h
    obtain h | ⟨x, mid, hx, hy⟩ := reading_bind_eq_error.mp h
    · obtain ⟨t, us, x, hkind, hstops, hlength, hread⟩ := hr.completed h
      have hmeet := hmeets x (.inr ⟨_, h⟩)
      have hnew := hfresh _ h x
      cases hmeet with
      | demand hdemand hnot =>
          obtain ⟨u, more, y, hukind, hustops, hulength, hgo⟩ :=
            hnew.completed hdemand
          refine ⟨t, us ++ u :: more, y, hkind, hstops, ?_, fun vs hvs => ?_⟩
          · simp only [List.length_cons, List.length_append] at *
            omega
          · have hstopped : Stopped first (u :: (more ++ vs)) :=
              stopped_cons hustops (hukind ▸ hnot)
            rw [List.append_assoc, List.cons_append,
              reading_bind_eq_of_ok (hread _ hstopped)]
            exact hgo vs (hvs.mono hsub)
      | @idle y hidle hbefore =>
          refine ⟨t, us, y, hkind, hstops, by omega, fun vs hvs => ?_⟩
          rw [reading_bind_eq_of_ok (hread vs (hvs.mono hbefore))]
          exact hnew.ended hidle vs (hvs.mono hsub)
    · rcases (hf x mid hx).completed hy with
        ⟨t, us, y, hkind, hstops, hlength, hread⟩
      refine ⟨t, us, y, hkind, hstops, hlength, fun vs hvs => ?_⟩
      have hgo := hread vs (hvs.mono hsub)
      by_cases hmid : mid = []
      · subst hmid
        have hstopped := (hmeets x (.inl hx)).stopped hy hkind hstops (us ++ vs)
        rw [reading_bind_eq_of_ok (hr.ended hx _ hstopped)]
        exact hgo
      · rw [reading_bind_eq_of_ok (hlocal.append_ok hx hmid _)]
        exact hgo

end

/-- How many tokens complete a reading on a stream of the given length: so many
where no template is open, and otherwise two for every two tokens of the stream
and so many more.  Nothing counts as the latter for readings without types. -/
def needs (flat deep n : Nat) : Nat :=
  max flat (if deep = 0 then 0 else 2 * (n / 2) + deep)

/-- What is needed in templates if so many tokens are needed behind them. -/
def raised (deep more : Nat) : Nat := if deep = 0 then 0 else deep + more

@[simp] theorem needs_zero (flat n : Nat) : needs flat 0 n = flat :=
  Nat.max_zero flat

theorem needs_of_pos {deep : Nat} (hdeep : 0 < deep) (flat n : Nat) :
    needs flat deep n = max flat (2 * (n / 2) + deep) := by
  rw [needs, if_neg (Nat.pos_iff_ne_zero.mp hdeep)]

theorem le_needs (flat deep n : Nat) : flat ≤ needs flat deep n :=
  Nat.le_max_left _ _

theorem needs_add (flat deep more n : Nat) :
    needs flat deep n + more = needs (flat + more) (raised deep more) n := by
  unfold needs raised
  by_cases hdeep : deep = 0
  · simp [hdeep]
  · have hmore : deep + more ≠ 0 := by omega
    rw [if_neg hdeep, if_neg hdeep, if_neg hmore]
    omega

theorem needs_mono {flat deep n flat' deep' n' : Nat} (hflat : flat ≤ flat')
    (hdeep : deep ≤ deep') (hn : n ≤ n') :
    needs flat deep n ≤ needs flat' deep' n' := by
  unfold needs
  split
  · omega
  · rw [if_neg (by omega)]
    omega

/-- The reading can go on with every stream.  The first two numbers bound the
tokens that are needed on a stream that is not empty, the third those that are
needed from nothing. -/
structure Completes {α : Type} (kinds : List TokenKind)
    (flat deep fresh : Nat) (r : Reading α) : Prop where
  composed : Composed r
  general : ∀ t ts,
    CompletesAt kinds (needs flat deep (t :: ts).length) r (t :: ts)
  fresh : CompletesAt kinds fresh r []

section
variable {α β : Type} {first second kinds more : List TokenKind}
  {f₁ d₁ e₁ f₂ d₂ e₂ : Nat} {r s : Reading α} {f : α → Reading β}

theorem Completes.anywhere (h : Completes kinds f₁ d₁ e₁ r) {ts : List Token}
    {n : Nat} (hfresh : e₁ ≤ n) (hneeds : needs f₁ d₁ ts.length ≤ n) :
    CompletesAt kinds n r ts := by
  cases ts with
  | nil => exact h.fresh.mono (List.Subset.refl _) hfresh
  | cons t ts => exact (h.general t ts).mono (List.Subset.refl _) hneeds

theorem Completes.mono {flat deep fresh : Nat} (h : Completes kinds f₁ d₁ e₁ r)
    (hfit : kinds ⊆ more ∧ f₁ ≤ flat ∧ d₁ ≤ deep ∧ e₁ ≤ fresh) :
    Completes more flat deep fresh r where
  composed := h.composed
  general t ts := (h.general t ts).mono hfit.1
    (needs_mono hfit.2.1 hfit.2.2.1 (Nat.le_refl _))
  fresh := h.fresh.mono hfit.1 hfit.2.2.2

theorem Completes.bind (hr : Completes first f₁ d₁ e₁ r)
    (hf : ∀ x, Completes second f₂ d₂ e₂ (f x))
    (hmeets : ∀ x, Meets first kinds (f x)) (hsub : second ⊆ kinds) :
    Completes kinds (max (f₁ + e₂) f₂) (max (raised d₁ e₂) d₂) (e₁ + e₂)
      (r >>= f) where
  composed := hr.composed.bind fun x => (hf x).composed
  general t ts := by
    have hfirst : needs f₁ d₁ (t :: ts).length + e₂ ≤
        needs (max (f₁ + e₂) f₂) (max (raised d₁ e₂) d₂) (t :: ts).length := by
      rw [needs_add]
      exact needs_mono (Nat.le_max_left _ _) (Nat.le_max_left _ _)
        (Nat.le_refl _)
    refine (hr.general t ts).bind hr.composed.isLocal (fun x mid hx => ?_)
      (fun _ _ x => (hf x).fresh) (fun x _ => hmeets x) hsub hfirst
    have hle := (hr.composed.isLocal.suffix_ok hx).length_le
    exact (hf x).anywhere (by omega)
      (needs_mono (Nat.le_max_right _ _) (Nat.le_max_right _ _) hle)
  fresh := by
    refine hr.fresh.bind hr.composed.isLocal (fun x mid hx => ?_)
      (fun _ _ x => (hf x).fresh) (fun x _ => hmeets x) hsub (Nat.le_refl _)
    obtain rfl := List.suffix_nil.mp (hr.composed.isLocal.suffix_ok hx)
    exact (hf x).fresh.mono (List.Subset.refl _) (by omega)

theorem meets_nil (h : Composed r) : Meets [] kinds r := by
  cases hr : r [] with
  | ok p =>
      rcases p with ⟨x, rest⟩
      obtain rfl := List.suffix_nil.mp (h.isLocal.suffix_ok hr)
      exact .idle hr (List.nil_subset _)
  | error e =>
      rcases e with ⟨fault, rest⟩
      obtain rfl := List.suffix_nil.mp (h.isLocal.suffix_error hr)
      obtain ⟨kind, rfl⟩ := h.isLocal.endOfInput hr
      exact .demand hr (by simp)

/-- Behind a reading that continues with nothing any other may follow. -/
theorem Completes.seq (hr : Completes [] f₁ d₁ e₁ r)
    (hf : ∀ x, Completes kinds f₂ d₂ e₂ (f x)) :
    Completes kinds (max (f₁ + e₂) f₂) (max (raised d₁ e₂) d₂) (e₁ + e₂)
      (r >>= f) :=
  hr.bind hf (fun x => meets_nil (hf x).composed) (List.Subset.refl _)

theorem Completes.demand (hr : Completes first f₁ d₁ e₁ r)
    (hf : ∀ x, Completes kinds f₂ d₂ e₂ (f x))
    (hdemand : ∀ x, ∃ kind, f x [] = .error ⟨.endOfInput kind, []⟩ ∧
      kind ∉ first) :
    Completes kinds (max (f₁ + e₂) f₂) (max (raised d₁ e₂) d₂) (e₁ + e₂)
      (r >>= f) := by
  refine hr.bind hf (fun x => ?_) (List.Subset.refl _)
  obtain ⟨kind, hx, hkind⟩ := hdemand x
  exact .demand hx hkind

theorem Completes.idle (hr : Completes first f₁ d₁ e₁ r)
    (hf : ∀ x, Completes second f₂ d₂ e₂ (f x))
    (hidle : ∀ x, ∃ y, f x [] = .ok (y, [])) :
    Completes (first ++ second) (max (f₁ + e₂) f₂) (max (raised d₁ e₂) d₂)
      (e₁ + e₂) (r >>= f) := by
  refine hr.bind hf (fun x => ?_) (List.subset_append_right _ _)
  obtain ⟨y, hy⟩ := hidle x
  exact .idle hy (List.subset_append_left _ _)

theorem completesAt_pure (x : α) {n : Nat} {ts : List Token} :
    CompletesAt kinds n (pure x : Reading α) ts := by
  constructor
  · intro y h us _
    cases h
    rfl
  · intro kind h
    cases h

theorem completes_pure (x : α) : Completes [] 0 0 0 (pure x : Reading α) where
  composed := .pure x
  general _ _ := completesAt_pure x
  fresh := completesAt_pure x

theorem CompletesAt.result {n : Nat} {ts : List Token}
    (h : CompletesAt kinds n r ts) (g : α → β) :
    CompletesAt kinds n (r >>= fun x => pure (g x)) ts := by
  constructor
  · intro y hy us hus
    obtain ⟨x, mid, hx, hpure⟩ := reading_bind_eq_ok.mp hy
    cases hpure
    rw [reading_bind_eq_of_ok (h.ended hx us hus)]
    rfl
  · intro kind hy
    obtain hx | ⟨x, mid, -, hpure⟩ := reading_bind_eq_error.mp hy
    · obtain ⟨t, us, x, hkind, hstops, hlength, hread⟩ := h.completed hx
      refine ⟨t, us, g x, hkind, hstops, hlength, fun vs hvs => ?_⟩
      rw [reading_bind_eq_of_ok (hread vs hvs)]
      rfl
    · cases hpure

theorem Completes.result (h : Completes kinds f₁ d₁ e₁ r) (g : α → β) :
    Completes kinds f₁ d₁ e₁ (r >>= fun x => pure (g x)) where
  composed := h.composed.bind fun x => .pure (g x)
  general t ts := (h.general t ts).result g
  fresh := h.fresh.result g

theorem Completes.map (h : Completes kinds f₁ d₁ e₁ r) (g : α → β) :
    Completes kinds f₁ d₁ e₁ (g <$> r) := by
  rw [map_eq_pure_bind]
  exact h.result g

end

/-! ## Single tokens -/

theorem dropWhile_append_of_nil {p : Token → Bool} {ts us : List Token}
    (hts : ts.dropWhile p = []) (hus : ∀ t ∈ us.head?, p t = false) :
    (ts ++ us).dropWhile p = us := by
  rw [List.dropWhile_append, hts]
  cases us with
  | nil => rfl
  | cons u us =>
      have hu : ¬ p u = true := by simp [hus u rfl]
      simp [List.dropWhile_cons_of_neg hu]

theorem skipLines_append_of_nil {kinds : List TokenKind} {ts us : List Token}
    (hts : skipLines ts = []) (hus : Stopped kinds us) :
    skipLines (ts ++ us) = us := by
  refine dropWhile_append_of_nil hts fun t ht => ?_
  simpa using (hus t ht).line

theorem Completes.of_total {α : Type} {kinds : List TokenKind} {r : Reading α}
    (hr : Composed r) (htotal : ∀ ts e, r ts ≠ .error e)
    (hended : ∀ {ts x}, r ts = .ok (x, []) → ∀ us, Stopped kinds us →
      r (ts ++ us) = .ok (x, us)) : Completes kinds 0 0 0 r where
  composed := hr
  general _ _ := ⟨hended, fun h => absurd h (htotal _ _)⟩
  fresh := ⟨hended, fun h => absurd h (htotal _ _)⟩

theorem Completes.of_token {α : Type} {kinds : List TokenKind} {r : Reading α}
    (hr : Composed r) (t : Token) (ht : Stops [] t) (x : α)
    (hnil : r [] = .error ⟨.endOfInput t.kind, []⟩)
    (hfront : ∀ u us e, r (u :: us) ≠ .error ⟨e, []⟩)
    (htoken : ∀ us, Stopped kinds us → r (t :: us) = .ok (x, us))
    (hended : ∀ u us y, r (u :: us) = .ok (y, []) → ∀ vs, Stopped kinds vs →
      r (u :: (us ++ vs)) = .ok (y, vs)) : Completes kinds 0 0 1 r where
  composed := hr
  general u us := ⟨hended u us _, fun h => absurd h (hfront u us _)⟩
  fresh := by
    constructor
    · intro y h
      rw [hnil] at h
      cases h
    · intro kind h
      rw [hnil] at h
      cases h
      exact ⟨t, [], x, rfl, ht, Nat.le_refl 1, htoken⟩

end Idl
