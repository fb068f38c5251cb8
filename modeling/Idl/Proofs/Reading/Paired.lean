import Idl.Proofs.Reading.Basic
import Idl.Reading.Type
import Mathlib.Data.List.Forall2

/-!
# Pairs of readings

Two readings are compared on two streams.  They are paired if they end alike on
all streams that are related: both with results, which are related as well, or
both with faults, and in front of rests that are related again.  Which streams,
results and faults are related is left open.

Pairs can be put in sequence, whatever the relations are.  So a loop is paired
where its round is, and a type where its parts are.
-/

namespace Idl

section
variable {α β : Type}

/-- Related results with related rests, or related faults at related rests.  How
the faults are related may depend on the rests. -/
inductive Paired (S T : List Token → List Token → Prop)
    (F : List Token → List Token → Fault → Fault → Prop) (R : α → β → Prop) :
    Except Failure (α × List Token) → Except Failure (β × List Token) →
      Prop where
  | ok {x : α} {y : β} {ts us : List Token} (hresult : R x y)
      (hrest : T ts us) : Paired S T F R (.ok (x, ts)) (.ok (y, us))
  | error {f g : Fault} {ts us : List Token} (hrest : S ts us)
      (hfault : F ts us f g) : Paired S T F R (.error ⟨f, ts⟩) (.error ⟨g, us⟩)

/-- The two readings end alike on related streams. -/
structure Pairs (S : List Token → List Token → Prop)
    (F : List Token → List Token → Fault → Fault → Prop) (R : α → β → Prop)
    (r : Reading α) (s : Reading β) : Prop where
  paired : ∀ {ts us}, S ts us → Paired S S F R (r ts) (s us)

end

section
variable {α β γ δ : Type} {S T U V : List Token → List Token → Prop}
  {F : List Token → List Token → Fault → Fault → Prop}
  {R R' : α → β → Prop} {Q : γ → δ → Prop}

/-! ## Sequences -/

/-- The second readings need to be paired only where the first ones arrive. -/
theorem Paired.bind {r : Reading α} {s : Reading β} {f : α → Reading γ}
    {g : β → Reading δ} {ts us : List Token} (h : Paired S T F R (r ts) (s us))
    (hf : ∀ x y mid mid', R x y → r ts = .ok (x, mid) → T mid mid' →
      Paired S U F Q (f x mid) (g y mid')) :
    Paired S U F Q ((r >>= f) ts) ((s >>= g) us) := by
  generalize hr : r ts = first at h
  generalize hs : s us = second at h
  cases h with
  | @ok x y mid mid' hresult hrest =>
      rw [reading_bind_eq_of_ok hr, reading_bind_eq_of_ok hs]
      exact hf x y mid mid' hresult hr hrest
  | error hrest hfault =>
      rw [reading_bind_eq_of_error hr, reading_bind_eq_of_error hs]
      exact .error hrest hfault

theorem Paired.map {r : Reading α} {s : Reading β} {f : α → γ} {g : β → δ}
    {ts us : List Token} (h : Paired S T F R (r ts) (s us))
    (hfg : ∀ x y, R x y → Q (f x) (g y)) :
    Paired S T F Q ((f <$> r) ts) ((g <$> s) us) := by
  rw [map_eq_pure_bind, map_eq_pure_bind]
  exact h.bind fun x y _ _ hxy _ hmid => .ok (hfg x y hxy) hmid

theorem Paired.mono {r : Except Failure (α × List Token)}
    {s : Except Failure (β × List Token)} (h : Paired S T F R r s)
    (hR : ∀ x y, R x y → R' x y) : Paired S T F R' r s := by
  cases h with
  | ok hresult hrest => exact .ok (hR _ _ hresult) hrest
  | error hrest hfault => exact .error hrest hfault

theorem Paired.mono_rests {r : Except Failure (α × List Token)}
    {s : Except Failure (β × List Token)} (h : Paired S T F R r s)
    (hSV : ∀ ts us, S ts us → V ts us) (hTU : ∀ ts us, T ts us → U ts us) :
    Paired V U F R r s := by
  cases h with
  | ok hresult hrest => exact .ok hresult (hTU _ _ hrest)
  | error hrest hfault => exact .error (hSV _ _ hrest) hfault

theorem pairs_pure {x : α} {y : β} (h : R x y) :
    Pairs S F R (pure x) (pure y) :=
  ⟨fun hS => .ok h hS⟩

theorem Pairs.bind {r : Reading α} {s : Reading β} {f : α → Reading γ}
    {g : β → Reading δ} (h : Pairs S F R r s)
    (hf : ∀ x y, R x y → Pairs S F Q (f x) (g y)) :
    Pairs S F Q (r >>= f) (s >>= g) :=
  ⟨fun hS => (h.paired hS).bind fun x y _ _ hxy _ hmid =>
    (hf x y hxy).paired hmid⟩

theorem Pairs.mono {r : Reading α} {s : Reading β} (h : Pairs S F R r s)
    (hR : ∀ x y, R x y → R' x y) : Pairs S F R' r s :=
  ⟨fun hS => (h.paired hS).mono hR⟩

theorem Pairs.yield {r : Reading α} {s : Reading β} {f : α → γ} {g : β → δ}
    (h : Pairs S F R r s) (hfg : ∀ x y, R x y → Q (f x) (g y)) :
    Pairs S F Q (do return f (← r)) (do return g (← s)) :=
  h.bind fun x y hxy => pairs_pure (hfg x y hxy)

theorem Pairs.map {r : Reading α} {s : Reading β} {f : α → γ} {g : β → δ}
    (h : Pairs S F R r s) (hfg : ∀ x y, R x y → Q (f x) (g y)) :
    Pairs S F Q (f <$> r) (g <$> s) := by
  rw [map_eq_pure_bind, map_eq_pure_bind]
  exact h.yield hfg

/-- Results that are the same on both sides. -/
theorem Pairs.andThen {r s : Reading α} {f : α → Reading γ}
    {g : α → Reading δ} (h : Pairs S F Eq r s)
    (hf : ∀ x, Pairs S F Q (f x) (g x)) : Pairs S F Q (r >>= f) (s >>= g) :=
  h.bind fun x _ hxy => hxy ▸ hf x

theorem Pairs.choice {found : Bool} {r r' : Reading α} {s s' : Reading β}
    (hr : Pairs S F R r s) (hs : Pairs S F R r' s') :
    Pairs S F R (if found = true then r else r')
      (if found = true then s else s') := by
  cases found with
  | false => exact hs
  | true => exact hr

/-- Decisions are the same on both sides. -/
theorem Pairs.branch {r s : Reading Bool} {f f' : Reading γ}
    {g g' : Reading δ} (h : Pairs S F Eq r s) (hf : Pairs S F Q f g)
    (hf' : Pairs S F Q f' g') :
    Pairs S F Q (do if ← r then f else f') (do if ← s then g else g') :=
  h.andThen fun _ => hf.choice hf'

end

/-! ## Streams that are related token by token -/

section
variable {P : Token → Token → Prop} {ts us : List Token}

theorem forall₂_dropWhile {p : Token → Bool}
    (hp : ∀ t u, P t u → p t = p u) (h : List.Forall₂ P ts us) :
    List.Forall₂ P (ts.dropWhile p) (us.dropWhile p) := by
  induction h with
  | nil => exact .nil
  | @cons t u ts us htu hmore ih =>
      rw [List.dropWhile_cons, List.dropWhile_cons, hp t u htu]
      split
      · exact ih
      · exact .cons htu hmore

theorem forall₂_skipLines (hkind : ∀ t u, P t u → t.kind = u.kind)
    (h : List.Forall₂ P ts us) :
    List.Forall₂ P (skipLines ts) (skipLines us) :=
  forall₂_dropWhile (fun t u htu => by rw [hkind t u htu]) h

end

/-! ## Loops -/

section
variable {α : Type} {S : List Token → List Token → Prop}
  {F : List Token → List Token → Fault → Fault → Prop} {R : α → α → Prop}
  {separator : TokenKind} {item : Reading α}

theorem pairs_followed
    (hseparator : Pairs S F Eq (eat separator) (eat separator))
    (hconsumes : Consumes item) (hitem : Pairs S F R item item) :
    Pairs S F (List.Forall₂ R) (followed separator item hconsumes)
      (followed separator item hconsumes) := by
  constructor
  intro ts
  induction hlength : ts.length using Nat.strongRecOn generalizing ts with
  | ind n ih =>
      intro us h
      rw [followed_eq]
      refine (hseparator.paired h).bind
        fun found _ mid mid' hfound hread hmid => ?_
      subst hfound
      have hle := keeps_eat separator ts found mid hread
      cases found with
      | false => exact .ok .nil hmid
      | true =>
          refine (hitem.paired hmid).bind
            fun x y last last' hxy hread' hlast => ?_
          have hlt := hconsumes mid x last hread'
          refine (ih last.length (by omega) rfl hlast).bind
            fun xs ys _ _ hxsys _ hend => ?_
          exact .ok (.cons hxy hxsys) hend

theorem pairs_separated
    (hseparator : Pairs S F Eq (eat separator) (eat separator))
    (hconsumes : Consumes item) (hitem : Pairs S F R item item) :
    Pairs S F (List.Forall₂ R) (separated separator item hconsumes)
      (separated separator item hconsumes) :=
  hitem.bind fun _ _ hxy =>
    (pairs_followed hseparator hconsumes hitem).yield fun _ _ hxsys =>
      .cons hxy hxsys

end

/-! ## Types -/

/-- What has to be paired for types to be: words, the marks around arguments,
and the rest of a name behind arguments. -/
structure PairsTypes (S : List Token → List Token → Prop)
    (F : List Token → List Token → Fault → Fault → Prop)
    (W : String → String → Prop) (R : TypeRef → TypeRef → Prop) : Prop where
  first : ∀ production, Pairs S F W (word production) (word production)
  less : Pairs S F Eq (eat .less) (eat .less)
  comma : Pairs S F Eq (eat .comma) (eat .comma)
  greater : Pairs S F Eq (expect .greater .templateArguments)
    (expect .greater .templateArguments)
  name : ∀ production {v w : String} {arguments arguments' : List TypeRef},
    W v w → List.Forall₂ R arguments arguments' →
      Pairs S F R (do return ⟨← typeName production v, none, arguments⟩)
        (do return ⟨← typeName production w, none, arguments'⟩)

section
variable {S : List Token → List Token → Prop}
  {F : List Token → List Token → Fault → Fault → Prop}
  {W : String → String → Prop} {R : TypeRef → TypeRef → Prop}

/-- A type and its arguments, by induction on the length of the stream. -/
theorem PairsTypes.types (h : PairsTypes S F W R) (n : Nat) :
    (∀ production {ts us : List Token}, ts.length < n → S ts us →
      Paired S S F R (readType production ts) (readType production us)) ∧
    ∀ {ts us : List Token}, ts.length < n → S ts us →
      Paired S S F (List.Forall₂ R) (readArguments ts) (readArguments us) := by
  induction n with
  | zero =>
      exact ⟨fun _ _ _ hlength => absurd hlength (Nat.not_lt_zero _),
        fun hlength => absurd hlength (Nat.not_lt_zero _)⟩
  | succ n ih =>
      rcases ih with ⟨-, harguments⟩
      have htype : ∀ production {ts us : List Token}, ts.length < n + 1 →
          S ts us → Paired S S F R (readType production ts)
            (readType production us) := by
        intro production ts us hlength hS
        rw [readType_eq]
        refine ((h.first production).paired hS).bind
          fun first first' mid mid' hfirst hread hmid => ?_
        have hlt := consumes_word production ts first mid hread
        refine Paired.bind (T := S) (R := List.Forall₂ R) ?_
          fun arguments arguments' _ _ hsame _ hlast => ?_
        · refine (h.less.paired hmid).bind
            fun found _ inner inner' hfound hread' hinner => ?_
          subst hfound
          have hle := keeps_eat .less mid found inner hread'
          cases found with
          | false => exact .ok .nil hinner
          | true => exact harguments (by omega) hinner
        · exact (h.name production hfirst hsame).paired hlast
      refine ⟨htype, fun {ts us} hlength hS => ?_⟩
      rw [readArguments_eq]
      refine (htype .templateArguments hlength hS).bind
        fun argument argument' mid mid' hargument hread hmid => ?_
      have hlt := consumes_readType _ ts argument mid hread
      refine (h.comma.paired hmid).bind
        fun found _ more more' hfound hread' hmore => ?_
      subst hfound
      have hle := keeps_eat .comma mid found more hread'
      cases found with
      | false =>
          exact (h.greater.yield fun _ _ _ =>
            .cons hargument .nil).paired hmore
      | true =>
          exact (harguments (by omega) hmore).bind
            fun arguments arguments' _ _ hsame _ hlast =>
              .ok (.cons hargument hsame) hlast

theorem PairsTypes.readType (h : PairsTypes S F W R)
    (production : Production) :
    Pairs S F R (readType production) (readType production) :=
  ⟨fun {ts _} hS => (h.types (ts.length + 1)).1 production
    (Nat.lt_succ_self _) hS⟩

end

end Idl
