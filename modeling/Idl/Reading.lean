import Idl.Fault

/-!
# Reading from a stream of tokens

A reading takes what it needs from the front of the stream and leaves the
rest, or fails at the front of what is left.  Line ends mean nothing to most
readings, so taking a token drops the line ends behind it as well; only
`textOnLine` and `wordOnLine` keep them in sight.

Two properties bound the loops of the grammar: a reading that `Consumes`
leaves a shorter stream, and one that `Keeps` at least not a longer one.
Both pass through sequencing.
-/

namespace Idl

/-- A fault, and the tokens from the offending one on; there is none at the
end of the input. -/
structure Failure where
  fault : Fault
  rest : List Token
  deriving DecidableEq, Repr

/-- A reading turns a stream into a result and the rest of the stream, or into
a failure. -/
abbrev Reading (α : Type) := StateT (List Token) (Except Failure) α

/-! ## Failures -/

/-- The failure at the front of a stream where a token of another kind was
needed.  A token that stands for the end of the input counts as the end. -/
def Failure.mismatch (needed : TokenKind) (fault : String → Fault)
    (ts : List Token) : Failure :=
  match ts with
  | [] => ⟨.endOfInput needed, []⟩
  | t :: _ =>
    if t.kind = .endOfInput then
      ⟨.endOfInput needed, ts⟩
    else
      ⟨fault t.describe, ts⟩

def Failure.expected (needed : TokenKind) (production : Production)
    (ts : List Token) : Failure :=
  .mismatch needed (.expected needed production) ts

/-! ## Single tokens -/

/-- Drops the line ends at the front of a stream. -/
def skipLines (ts : List Token) : List Token :=
  ts.dropWhile fun t => t.kind == .endLine

/-- What is left behind a token of the given kind, if there is one in
front. -/
def eat? (kind : TokenKind) : List Token → Option (List Token)
  | [] => none
  | t :: ts => if t.kind = kind then some (skipLines ts) else none

def eatWord? (word : String) : List Token → Option (List Token)
  | [] => none
  | t :: ts => if t.isWord word then some (skipLines ts) else none

def eat (kind : TokenKind) : Reading Bool := fun ts =>
  match eat? kind ts with
  | none => .ok (false, ts)
  | some rest => .ok (true, rest)

def eatWord (word : String) : Reading Bool := fun ts =>
  match eatWord? word ts with
  | none => .ok (false, ts)
  | some rest => .ok (true, rest)

def expect (kind : TokenKind) (production : Production) : Reading Unit :=
  fun ts =>
    match eat? kind ts with
    | none => .error (.expected kind production ts)
    | some rest => .ok ((), rest)

/-- Takes the given word, or fails with a fault of its own. -/
def expectWord (word : String) (fault : String → Fault) : Reading Unit :=
  fun ts =>
    match eatWord? word ts with
    | none => .error (.mismatch .identifier fault ts)
    | some rest => .ok ((), rest)

/-- Takes a token of a kind that carries a text, and keeps a line end behind
it. -/
def textOnLine (kind : TokenKind) (production : Production) : Reading String
  | [] => .error (.expected kind production [])
  | t :: ts =>
    if t.kind = kind then
      .ok (t.text, ts)
    else
      .error (.expected kind production (t :: ts))

def nextLine : Reading Unit := fun ts => .ok ((), skipLines ts)

def wordOnLine (production : Production) : Reading String :=
  textOnLine .identifier production

def word (production : Production) : Reading String := do
  let text ← wordOnLine production
  nextLine
  return text

def ahead (kind : TokenKind) : Reading Bool := fun ts =>
  .ok ((ts.head?.map Token.kind) == some kind, ts)

/-- The place of the token in front; the end of the input has none of its
own here. -/
def place : Reading Span := fun ts =>
  .ok ((ts.head?.map Token.span).getD (.point 0), ts)

/-! ## Progress -/

/-- Whenever the reading succeeds it leaves a shorter stream. -/
def Consumes {α : Type} (r : Reading α) : Prop :=
  ∀ ts x rest, r ts = .ok (x, rest) → rest.length < ts.length

/-- Whenever the reading succeeds it leaves no longer stream. -/
def Keeps {α : Type} (r : Reading α) : Prop :=
  ∀ ts x rest, r ts = .ok (x, rest) → rest.length ≤ ts.length

/-- A sequence of two readings succeeds when both do, one behind the
other. -/
theorem reading_bind_eq_ok {α β : Type} {r : Reading α} {f : α → Reading β}
    {ts rest : List Token} {y : β} :
    (r >>= f) ts = .ok (y, rest) ↔
      ∃ x mid, r ts = .ok (x, mid) ∧ f x mid = .ok (y, rest) := by
  change (Except.bind (r ts) fun p => f p.1 p.2) = _ ↔ _
  cases hr : r ts with
  | error e => simp [Except.bind]
  | ok p =>
    obtain ⟨x, mid⟩ := p
    constructor
    · intro h
      exact ⟨x, mid, rfl, h⟩
    · rintro ⟨x', mid', hx, hy⟩
      cases hx
      exact hy

theorem Consumes.keeps {α : Type} {r : Reading α} (h : Consumes r) :
    Keeps r :=
  fun ts x rest hr => Nat.le_of_lt (h ts x rest hr)

theorem keeps_pure {α : Type} (x : α) : Keeps (pure x : Reading α) := by
  intro ts y rest h
  cases h
  exact Nat.le_refl _

theorem Consumes.bind {α β : Type} {r : Reading α} {f : α → Reading β}
    (hr : Consumes r) (hf : ∀ x, Keeps (f x)) : Consumes (r >>= f) := by
  intro ts y rest h
  obtain ⟨x, mid, hx, hy⟩ := reading_bind_eq_ok.mp h
  exact Nat.lt_of_le_of_lt (hf x mid y rest hy) (hr ts x mid hx)

theorem Keeps.bind_consumes {α β : Type} {r : Reading α} {f : α → Reading β}
    (hr : Keeps r) (hf : ∀ x, Consumes (f x)) : Consumes (r >>= f) := by
  intro ts y rest h
  obtain ⟨x, mid, hx, hy⟩ := reading_bind_eq_ok.mp h
  exact Nat.lt_of_lt_of_le (hf x mid y rest hy) (hr ts x mid hx)

theorem Keeps.bind {α β : Type} {r : Reading α} {f : α → Reading β}
    (hr : Keeps r) (hf : ∀ x, Keeps (f x)) : Keeps (r >>= f) := by
  intro ts y rest h
  obtain ⟨x, mid, hx, hy⟩ := reading_bind_eq_ok.mp h
  exact Nat.le_trans (hf x mid y rest hy) (hr ts x mid hx)

theorem skipLines_length_le (ts : List Token) :
    (skipLines ts).length ≤ ts.length :=
  (List.dropWhile_suffix _).length_le

theorem eat?_length_lt {kind : TokenKind} {ts rest : List Token}
    (h : eat? kind ts = some rest) : rest.length < ts.length := by
  cases ts with
  | nil => simp [eat?] at h
  | cons t ts =>
    rw [eat?] at h
    split at h
    · cases h
      exact Nat.lt_succ_of_le (skipLines_length_le ts)
    · cases h

theorem eatWord?_length_lt {word : String} {ts rest : List Token}
    (h : eatWord? word ts = some rest) : rest.length < ts.length := by
  cases ts with
  | nil => simp [eatWord?] at h
  | cons t ts =>
    rw [eatWord?] at h
    split at h
    · cases h
      exact Nat.lt_succ_of_le (skipLines_length_le ts)
    · cases h

theorem keeps_eat (kind : TokenKind) : Keeps (eat kind) := by
  intro ts x rest h
  unfold eat at h
  split at h
  · cases h
    exact Nat.le_refl _
  · next heat =>
    cases h
    exact Nat.le_of_lt (eat?_length_lt heat)

theorem keeps_eatWord (word : String) : Keeps (eatWord word) := by
  intro ts x rest h
  unfold eatWord at h
  split at h
  · cases h
    exact Nat.le_refl _
  · next heat =>
    cases h
    exact Nat.le_of_lt (eatWord?_length_lt heat)

theorem consumes_expect (kind : TokenKind) (production : Production) :
    Consumes (expect kind production) := by
  intro ts x rest h
  unfold expect at h
  split at h
  · cases h
  · next heat =>
    cases h
    exact eat?_length_lt heat

theorem consumes_expectWord (word : String) (fault : String → Fault) :
    Consumes (expectWord word fault) := by
  intro ts x rest h
  unfold expectWord at h
  split at h
  · cases h
  · next heat =>
    cases h
    exact eatWord?_length_lt heat

theorem consumes_textOnLine (kind : TokenKind) (production : Production) :
    Consumes (textOnLine kind production) := by
  intro ts x rest h
  cases ts with
  | nil => cases h
  | cons t ts =>
    rw [textOnLine] at h
    split at h
    · cases h
      exact Nat.lt_succ_self _
    · cases h

theorem keeps_nextLine : Keeps nextLine := by
  intro ts x rest h
  cases h
  exact skipLines_length_le ts

theorem consumes_word (production : Production) :
    Consumes (word production) :=
  (consumes_textOnLine _ _).bind fun text =>
    keeps_nextLine.bind fun _ => keeps_pure text

theorem keeps_ahead (kind : TokenKind) : Keeps (ahead kind) := by
  intro ts x rest h
  cases h
  exact Nat.le_refl _

theorem keeps_place : Keeps place := by
  intro ts x rest h
  cases h
  exact Nat.le_refl _

end Idl
