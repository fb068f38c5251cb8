import Idl.Proofs.Grammar.Members
import Idl.Proofs.Reading.Local

/-!
# Loops and nesting within bounds

A loop of the grammar looks at the token in front and either leaves or takes
something and looks again.  Written like this nothing in its form makes it
end: at the end of the input taking a token takes nothing, and a loop that did
not leave there would go round for ever.  The loops below are allowed a number
of rounds, types a depth of nesting, and where that does not suffice there is
no outcome at all.

As many rounds, or levels, as there are tokens left always suffice, and the
outcome is that of the reading: a round that goes on has taken a token, and so
has a type before it reads the types inside it.
-/

namespace Idl

open Grammar

/-- A reading that may come to no outcome. -/
abbrev Limited (α : Type) := StateT (List Token) (ExceptT Failure Option) α

def limited {α : Type} (r : Reading α) : Limited α := fun ts => some (r ts)

/-- A bound was reached. -/
def exhausted {α : Type} : Limited α := fun _ => none

/-- Repeats a round until it is done, if no more than `n` rounds go on before
that. -/
def loopUpTo {σ : Type} (round : σ → Limited (ForInStep σ)) (n : Nat) (s : σ) :
    Limited σ := do
  match ← round s with
  | .done s' => return s'
  | .yield s' =>
    match n with
    | 0 => exhausted
    | n + 1 => loopUpTo round n s'

/-- The bound suffices wherever no more tokens are left. -/
def Suffices {α : Type} (bounded : Nat → Limited α) (r : Reading α) : Prop :=
  ∀ n ts, ts.length ≤ n → bounded n ts = some (r ts)

/-! ## Sequences -/

section
variable {α β : Type} {l m : Limited α} {r s : Reading α} {ts : List Token}

/-- A sequence comes to the outcome of the readings if its parts do. -/
theorem limited_bind {f : α → Limited β} {g : α → Reading β}
    (hl : l ts = some (r ts))
    (hf : ∀ x rest, r ts = .ok (x, rest) → f x rest = some (g x rest)) :
    (l >>= f) ts = some ((r >>= g) ts) := by
  change Option.bind (l ts) _ = _
  rw [hl]
  cases hr : r ts with
  | error e =>
      rw [reading_bind_eq_of_error hr]
      rfl
  | ok p =>
      obtain ⟨x, rest⟩ := p
      rw [reading_bind_eq_of_ok hr]
      exact hf x rest hr

theorem limited_choice {found : Bool}
    (hl : found = true → l ts = some (r ts))
    (hm : found = false → m ts = some (s ts)) :
    (if found = true then l else m) ts =
      some ((if found = true then r else s) ts) := by
  cases found with
  | false => exact hm rfl
  | true => exact hl rfl

end

/-! ## Rounds -/

/-- What the loop for the reading `r` does behind a round. -/
def proceed {σ : Type} (r : σ → Reading σ) : ForInStep σ → Reading σ
  | .done s => pure s
  | .yield s => r s

/-- On streams with the property `P` the reading `r` does the round and, where
that goes on, itself again; a round goes on only behind a token. -/
structure Unrolls {σ : Type} (round : σ → Reading (ForInStep σ))
    (r : σ → Reading σ) (P : List Token → Prop) : Prop where
  unroll : ∀ s ts, P ts → r s ts = (round s >>= proceed r) ts
  progress : ∀ s s' ts rest, P ts → round s ts = .ok (.yield s', rest) →
    rest.length < ts.length ∧ P rest

theorem Unrolls.loopUpTo_eq {σ : Type} {round : σ → Reading (ForInStep σ)}
    {r : σ → Reading σ} {P : List Token → Prop} (h : Unrolls round r P)
    {bounded : σ → Limited (ForInStep σ)} {m n : Nat} {ts : List Token}
    (hround : ∀ s us, us.length ≤ m → bounded s us = some (round s us))
    (hm : ts.length ≤ m) (hn : ts.length ≤ n) (hts : P ts) (s : σ) :
    loopUpTo bounded n s ts = some (r s ts) := by
  induction hlength : ts.length using Nat.strongRecOn generalizing n s ts with
  | ind k ih =>
      rw [loopUpTo.eq_def, h.unroll s ts hts]
      refine limited_bind (hround s ts hm) ?_
      rintro (s' | s') rest hrest
      · rfl
      · obtain ⟨hshorter, hP⟩ := h.progress s s' ts rest hts hrest
        cases n with
        | zero => omega
        | succ n =>
            exact ih rest.length (by omega) (by omega) (by omega) hP s' rfl

/-! ## Line ends -/

/-- Takes the token in front; at the end there is none to take. -/
def takeOne : Reading Unit := fun ts => .ok ((), ts.tail)

def lineRound (_ : Unit) : Reading (ForInStep Unit) := do
  if ← ahead .endLine then
    takeOne
    return .yield ()
  else
    return .done ()

def linesUpTo (n : Nat) : Limited Unit :=
  loopUpTo (fun s => limited (lineRound s)) n ()

theorem lineRound_cons (t : Token) (ts : List Token) :
    lineRound () (t :: ts) =
      if t.kind = .endLine then .ok (.yield (), ts)
      else .ok (.done (), t :: ts) :=
  Composed.ahead_choice_cons

theorem unrolls_lines :
    Unrolls lineRound (fun _ => nextLine) fun _ => True where
  unroll := by
    rintro ⟨⟩ (_ | ⟨t, ts⟩) -
    · rfl
    by_cases hkind : t.kind = .endLine
    · have hround := lineRound_cons t ts
      rw [if_pos hkind] at hround
      rw [reading_bind_eq_of_ok hround, nextLine, skipLines_cons_endLine hkind]
      rfl
    · have hround := lineRound_cons t ts
      have hsettled : skipLines (t :: ts) = t :: ts := settled_cons.mpr hkind
      rw [if_neg hkind] at hround
      rw [reading_bind_eq_of_ok hround, nextLine, hsettled]
      rfl
  progress := by
    rintro ⟨⟩ ⟨⟩ (_ | ⟨t, ts⟩) rest - h
    · cases h
    rw [lineRound_cons] at h
    split at h
    · cases h
      exact ⟨Nat.lt_succ_self _, trivial⟩
    · cases h

theorem suffices_lines : Suffices linesUpTo nextLine := fun _ _ hn =>
  unrolls_lines.loopUpTo_eq (fun _ _ _ => rfl) hn hn trivial ()

/-! ## Items behind separators -/

section
variable {α : Type} {separator : TokenKind} {item : Reading α}

def furtherRound (separator : TokenKind) (item : Reading α) (xs : List α) :
    Reading (ForInStep (List α)) := do
  if ← eat separator then
    let x ← item
    return .yield (xs ++ [x])
  else
    return .done xs

/-- Reads an item behind every separator, as long as there are no more than
`n`. -/
def followedUpTo (separator : TokenKind) (item : Limited α) (n : Nat) :
    Limited (List α) :=
  loopUpTo (fun xs => do
    if ← limited (eat separator) then
      let x ← item
      return .yield (xs ++ [x])
    else
      return .done xs) n []

def separatedUpTo (separator : TokenKind) (item : Limited α) (n : Nat) :
    Limited (List α) := do
  let x ← item
  let xs ← followedUpTo separator item n
  return x :: xs

theorem unrolls_followed (hitem : Consumes item) :
    Unrolls (furtherRound separator item)
      (fun xs => (xs ++ ·) <$> followed separator item hitem)
      fun _ => True where
  unroll := by
    intro xs ts _
    -- Only the first round is opened; behind it the sequence stays as it is.
    conv_lhs => rw [followed_eq]
    rw [furtherRound, map_eq_pure_bind, bind_assoc, bind_assoc]
    refine reading_bind_congr rfl fun found mid _ => ?_
    cases found <;> simp [proceed]
  progress := by
    intro xs ys ts rest _ h
    obtain ⟨found, mid, hfound, h⟩ := reading_bind_eq_ok.mp h
    have hmid := keeps_eat separator ts found mid hfound
    cases found with
    | false => cases h
    | true =>
        obtain ⟨x, rest', hx, h⟩ := reading_bind_eq_ok.mp h
        have hrest := hitem mid x rest' hx
        cases h
        exact ⟨by omega, trivial⟩

variable {l : Limited α} {n : Nat} {ts : List Token}
  (hl : ∀ us, us.length ≤ n → l us = some (item us)) (hn : ts.length ≤ n)
  (hitem : Consumes item)

include hl hn in
theorem followedUpTo_eq :
    followedUpTo separator l n ts = some (followed separator item hitem ts) := by
  have hloop : followedUpTo separator l n ts =
      some ((([] ++ ·) <$> followed separator item hitem) ts) := by
    refine (unrolls_followed hitem).loopUpTo_eq (fun xs us hus => ?_) hn hn
      trivial []
    refine limited_bind rfl fun found mid hfound => ?_
    have hmid := keeps_eat separator us found mid hfound
    exact limited_choice
      (fun _ => limited_bind (hl mid (by omega)) fun _ _ _ => rfl)
      (fun _ => rfl)
  simpa using hloop

include hl hn in
theorem separatedUpTo_eq :
    separatedUpTo separator l n ts =
      some (separated separator item hitem ts) := by
  refine limited_bind (hl ts hn) fun x mid hx => ?_
  have hmid := hitem ts x mid hx
  exact limited_bind (followedUpTo_eq hl (by omega) hitem) fun _ _ _ => rfl

end

/-! ## Commas -/

def commaRound (_ : Unit) : Reading (ForInStep Unit) := do
  if ← eat .comma then
    return .yield ()
  else
    return .done ()

/-- Reads an enumerator with no more than `n` commas behind it. -/
def enumeratorUpTo (n : Nat) : Limited String := do
  let name ← limited (word .enumerator)
  loopUpTo (fun s => limited (commaRound s)) n ()
  return name

theorem commaRound_cons (t : Token) (ts : List Token) :
    commaRound () (t :: ts) =
      if t.kind = .comma then .ok (.yield (), skipLines ts)
      else .ok (.done (), t :: ts) :=
  Composed.eat_choice_cons

theorem unrolls_commas : Unrolls commaRound (fun _ => skipCommas) Settled where
  unroll := by
    rintro ⟨⟩ (_ | ⟨t, ts⟩) hsettled
    · rfl
    have hround := commaRound_cons t ts
    by_cases hkind : t.kind = .comma
    · rw [if_pos hkind] at hround
      rw [reading_bind_eq_of_ok hround, skipCommas,
        List.dropWhile_cons_of_pos (by simp [hkind]),
        ← dropWhile_skipLines comma_or_endLine_of_endLine]
      rfl
    · have hline := settled_cons.mp hsettled
      rw [if_neg hkind] at hround
      rw [reading_bind_eq_of_ok hround, skipCommas,
        List.dropWhile_cons_of_neg (by simp [hkind, hline])]
      rfl
  progress := by
    rintro ⟨⟩ ⟨⟩ (_ | ⟨t, ts⟩) rest - h
    · cases h
    rw [commaRound_cons] at h
    split at h
    · cases h
      exact ⟨Nat.lt_succ_of_le (skipLines_length_le ts), settled_skipLines ts⟩
    · cases h

theorem settled_of_word {production : Production} {ts rest : List Token}
    {text : String} (h : word production ts = .ok (text, rest)) :
    Settled rest := by
  obtain ⟨x, mid, -, h⟩ := reading_bind_eq_ok.mp h
  obtain ⟨_, mid', hline, h⟩ := reading_bind_eq_ok.mp h
  cases hline
  cases h
  exact settled_skipLines mid

theorem suffices_enumerator : Suffices enumeratorUpTo readEnumerator := by
  intro n ts hn
  refine limited_bind rfl fun name rest hname => ?_
  have hrest := consumes_word _ ts name rest hname
  exact limited_bind (unrolls_commas.loopUpTo_eq (fun _ _ _ => rfl)
    (Nat.le_refl _) (by omega) (settled_of_word hname) ()) fun _ _ _ => rfl

/-! ## Parameters -/

def parameterRound (ps : List Parameter) :
    Reading (ForInStep (List Parameter)) := do
  let p ← readParameter
  if ← eat .comma then
    return .yield (ps ++ [p])
  else
    expect .closeRound .parameter
    return .done (ps ++ [p])

/-- Reads the parameters of a method, as long as no more than `n` go on behind
a comma. -/
def parametersUpTo (n : Nat) : Limited (List Parameter) := do
  if ← limited (eat .closeRound) then
    limited (expect .semicolon .method)
    return []
  else
    let parameters ← loopUpTo (fun ps => limited (parameterRound ps)) n []
    let _ ← limited (eat .semicolon)
    return parameters

/-- The parameters behind those that were read, up to the bracket. -/
def parametersBehind (ps : List Parameter) : Reading (List Parameter) := do
  let qs ← separated .comma readParameter consumes_readParameter
  expect .closeRound .parameter
  return ps ++ qs

theorem unrolls_parameters :
    Unrolls parameterRound parametersBehind fun _ => True where
  unroll := by
    intro ps ts _
    rw [parametersBehind, separated, parameterRound, bind_assoc, bind_assoc]
    refine reading_bind_congr rfl fun p mid _ => ?_
    rw [followed_eq, bind_assoc, bind_assoc, bind_assoc]
    refine reading_bind_congr rfl fun found mid' _ => ?_
    cases found <;> simp [proceed, parametersBehind, separated]
  progress := by
    intro ps qs ts rest _ h
    have hconsumes : Consumes (parameterRound ps) := by
      refine consumes_readParameter.bind fun p => (keeps_eat _).bind ?_
      rintro (_ | _)
      · exact (consumes_expect _ _).keeps.bind fun _ => keeps_pure _
      · exact keeps_pure _
    exact ⟨hconsumes ts _ rest h, trivial⟩

theorem readParameters_eq :
    readParameters = (do
      if ← eat .closeRound then
        expect .semicolon .method
        return []
      else
        let parameters ← parametersBehind []
        let _ ← eat .semicolon
        return parameters) := by
  simp [readParameters, parametersBehind]

theorem suffices_parameters : Suffices parametersUpTo readParameters := by
  intro n ts hn
  rw [readParameters_eq]
  refine limited_bind rfl fun closed mid hclosed => ?_
  have hmid := keeps_eat _ ts closed mid hclosed
  refine limited_choice (fun _ => limited_bind rfl fun _ _ _ => rfl) fun _ => ?_
  exact limited_bind (unrolls_parameters.loopUpTo_eq (fun _ _ _ => rfl)
    (Nat.le_refl _) (by omega) trivial [])
    fun _ _ _ => limited_bind rfl fun _ _ _ => rfl

/-! ## Values -/

def valueRound (text : String) : Reading (ForInStep String)
  | [] => .ok (.done text, [])
  | t :: ts =>
    if t.kind = .identifier ∨ t.kind = .literal ∨ t.kind = .less then
      .ok (.yield (text ++ valuePart t), skipLines ts)
    else
      .ok (.done text, t :: ts)

/-- Reads a constant value of no more than `n` tokens, line ends apart. -/
def valueUpTo (n : Nat) : Limited String := do
  if ← limited (ahead .identifier) then
    loopUpTo (fun text => limited (valueRound text)) n ""
  else if ← limited (ahead .literal) then
    let text ← loopUpTo (fun text => limited (valueRound text)) n ""
    return "\"" ++ text ++ "\""
  else
    limited (refuse .identifier fun t =>
      .expected .identifier .constantValue t.describe)

/-- The text of a value behind the part that was read. -/
def valueBehind (text : String) : Reading String := fun ts =>
  .ok (text ++ valueText (ts.takeWhile inValue), ts.dropWhile inValue)

theorem unrolls_value : Unrolls valueRound valueBehind Settled where
  unroll := by
    rintro text (_ | ⟨t, ts⟩) hsettled
    · have htext : valueBehind text [] = .ok (text, []) := by
        simp [valueBehind, valueText]
      exact htext
    by_cases hvalue :
        t.kind = .identifier ∨ t.kind = .literal ∨ t.kind = .less
    · have hround : valueRound text (t :: ts) =
          .ok (.yield (text ++ valuePart t), skipLines ts) := if_pos hvalue
      have hin : inValue t = true := by
        simpa [inValue, or_assoc] using Or.inl hvalue
      have hstep := takeWhile_inValue_step hin (settled_skipLines ts).symm
      rw [reading_bind_eq_of_ok hround, valueBehind, hstep.1, hstep.2,
        ← String.append_assoc]
      rfl
    · have hround : valueRound text (t :: ts) =
          .ok (.done text, t :: ts) := if_neg hvalue
      have hline := settled_cons.mp hsettled
      have hin : ¬ inValue t = true := by
        simpa [inValue, hline, or_assoc] using hvalue
      have htext : valueBehind text (t :: ts) = .ok (text, t :: ts) := by
        simp [valueBehind, valueText, List.takeWhile_cons_of_neg hin,
          List.dropWhile_cons_of_neg hin]
      rw [reading_bind_eq_of_ok hround]
      exact htext
  progress := by
    rintro text text' (_ | ⟨t, ts⟩) rest - h
    · cases h
    rw [valueRound] at h
    split at h
    · cases h
      exact ⟨Nat.lt_succ_of_le (skipLines_length_le ts), settled_skipLines ts⟩
    · cases h

theorem constantValue_eq :
    constantValue = (do
      if ← ahead .identifier then valueBehind ""
      else if ← ahead .literal then
        let text ← valueBehind ""
        return "\"" ++ text ++ "\""
      else refuse .identifier fun t =>
        .expected .identifier .constantValue t.describe) := by
  funext ts
  cases ts with
  | nil => rfl
  | cons t ts =>
      rw [Composed.ahead_choice_cons, Composed.ahead_choice_cons]
      by_cases hword : t.kind = .identifier
      · rw [if_pos hword, constantValue_of_word hword, valueBehind,
          String.empty_append]
      rw [if_neg hword]
      by_cases hliteral : t.kind = .literal
      · have htext : valueBehind "" (t :: ts) =
            .ok (valueText ((t :: ts).takeWhile inValue),
              (t :: ts).dropWhile inValue) := by
          rw [valueBehind, String.empty_append]
        rw [if_pos hliteral, constantValue_of_literal hliteral,
          reading_bind_eq_of_ok htext]
        rfl
      · rw [if_neg hliteral, constantValue_of_other hword hliteral]

theorem ahead_eq_ok {kind : TokenKind} {found : Bool} {ts rest : List Token}
    (h : ahead kind ts = .ok (found, rest)) :
    rest = ts ∧ (found = true → kind ≠ .endLine → Settled ts) := by
  cases ts with
  | nil =>
      cases h
      exact ⟨rfl, nofun⟩
  | cons t ts =>
      simp only [ahead, List.head?_cons, Option.map_some, Except.ok.injEq,
        Prod.mk.injEq] at h
      refine ⟨h.2.symm, fun hfound hline => settled_cons.mpr ?_⟩
      have hkind : t.kind = kind := by simpa [hfound] using h.1
      exact hkind ▸ hline

theorem suffices_value : Suffices valueUpTo constantValue := by
  intro n ts hn
  rw [constantValue_eq]
  -- The loop leaves at a line end, which the value would run over; behind a
  -- word or a literal there is none left in front.
  have hloop : Settled ts →
      loopUpTo (fun text => limited (valueRound text)) n "" ts =
        some (valueBehind "" ts) := fun hts =>
    unrolls_value.loopUpTo_eq (fun _ _ _ => rfl) hn hn hts ""
  refine limited_bind rfl fun word mid hword => ?_
  obtain ⟨rfl, hsettled⟩ := ahead_eq_ok hword
  refine limited_choice (fun h => hloop (hsettled h (by decide))) fun _ => ?_
  refine limited_bind rfl fun literal mid hliteral => ?_
  obtain ⟨rfl, hsettled⟩ := ahead_eq_ok hliteral
  exact limited_choice
    (fun h => limited_bind (hloop (hsettled h (by decide))) fun _ _ _ => rfl)
    (fun _ => rfl)

/-! ## Types -/

/-- Reads a type as long as types are nested in it no more than `n` levels
deep, and no more of them than that follow behind commas on a level. -/
def typeUpTo (production : Production) (n : Nat) : Limited TypeRef := do
  let first ← limited (word production)
  let arguments ← (do
    if ← limited (eat .less) then
      match n with
      | 0 => exhausted
      | n + 1 =>
        let arguments ←
          separatedUpTo .comma (typeUpTo .templateArguments n) n
        limited (expect .greater .templateArguments)
        return arguments
    else
      return [])
  let name ← limited (typeName production first)
  return ⟨name, none, arguments⟩

/-- Arguments are types with commas between them. -/
theorem readArguments_eq_separated :
    readArguments = (do
      let arguments ← separated .comma (readType .templateArguments)
        (consumes_readType .templateArguments)
      expect .greater .templateArguments
      return arguments) := by
  funext ts
  induction hlength : ts.length using Nat.strongRecOn generalizing ts with
  | ind k ih =>
      rw [readArguments_eq, separated, bind_assoc]
      refine reading_bind_congr rfl fun argument mid hargument => ?_
      have hmid := consumes_readType _ ts argument mid hargument
      rw [followed_eq, bind_assoc, bind_assoc]
      refine reading_bind_congr rfl fun found mid' hfound => ?_
      have hmid' := keeps_eat _ mid found mid' hfound
      cases found with
      | false => simp
      | true =>
          refine (reading_bind_congr (ih mid'.length (by omega) mid' rfl)
            fun _ _ _ => rfl).trans ?_
          simp [separated]

theorem suffices_type (production : Production) :
    Suffices (typeUpTo production) (readType production) := by
  intro n
  induction n generalizing production with
  | zero =>
      intro ts hn
      rw [typeUpTo, readType_eq]
      refine limited_bind rfl fun first rest hfirst => ?_
      have hrest := consumes_word _ ts first rest hfirst
      omega
  | succ n ih =>
      intro ts hn
      rw [typeUpTo, readType_eq]
      refine limited_bind rfl fun first rest hfirst => ?_
      have hrest := consumes_word _ ts first rest hfirst
      refine limited_bind ?_ fun _ _ _ => limited_bind rfl fun _ _ _ => rfl
      refine limited_bind rfl fun found inner hfound => ?_
      have hinner := keeps_eat _ rest found inner hfound
      refine limited_choice (fun _ => ?_) fun _ => rfl
      rw [readArguments_eq_separated]
      refine limited_bind (separatedUpTo_eq (ih _) (by omega) _)
        fun _ _ _ => limited_bind rfl fun _ _ _ => rfl

-- Two brackets that nobody closes need two levels to be found wanting.
example :
    let ts : List Token := [⟨.identifier, "A", ⟨0, 1⟩⟩, ⟨.less, "", ⟨1, 2⟩⟩,
      ⟨.identifier, "B", ⟨2, 3⟩⟩, ⟨.less, "", ⟨3, 4⟩⟩]
    typeUpTo .typedef 1 ts = none ∧
      typeUpTo .typedef 2 ts =
        some (.error ⟨.endOfInput .identifier, []⟩) := by
  constructor <;> rfl

end Idl
