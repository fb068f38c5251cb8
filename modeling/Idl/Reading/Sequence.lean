import Idl.Reading

/-!
# Reading sequences

Most loops of the grammar read items with a separator between them.  A
sequence goes on as long as the separator follows, and it ends because every
item takes at least one token.  `followed_eq` is the loop as an equation
between readings.
-/

namespace Idl

/-- Reads an item behind every separator that follows. -/
def followed {α : Type} (separator : TokenKind) (item : Reading α)
    (hitem : Consumes item) : Reading (List α) := fun ts =>
  match h : eat? separator ts with
  | none => .ok ([], ts)
  | some rest =>
    match hx : item rest with
    | .error failure => .error failure
    | .ok (x, rest') =>
      have _shorter : rest'.length < ts.length :=
        Nat.lt_trans (hitem rest x rest' hx) (eat?_length_lt h)
      match followed separator item hitem rest' with
      | .error failure => .error failure
      | .ok (xs, rest'') => .ok (x :: xs, rest'')
termination_by ts => ts.length
decreasing_by exact _shorter

/-- Reads one item, and one more behind every separator that follows. -/
def separated {α : Type} (separator : TokenKind) (item : Reading α)
    (hitem : Consumes item) : Reading (List α) := do
  let x ← item
  let xs ← followed separator item hitem
  return x :: xs

theorem followed_eq {α : Type} (separator : TokenKind) (item : Reading α)
    (hitem : Consumes item) :
    followed separator item hitem = (do
      if ← eat separator then
        let x ← item
        let xs ← followed separator item hitem
        return x :: xs
      else
        return []) := by
  funext ts
  rw [followed]
  simp only [bind, StateT.bind, Except.bind, eat]
  split
  · next h =>
    rw [h]
    rfl
  · next rest h =>
    rw [h]
    simp only
    split
    · next hx => simp [StateT.bind, bind, Except.bind, hx]
    · next x rest' hx =>
      simp only [if_true, StateT.bind, bind, Except.bind, hx]
      split
      · next hxs => rw [hxs]
      · next hxs =>
        rw [hxs]
        rfl

theorem keeps_followed {α : Type} (separator : TokenKind) (item : Reading α)
    (hitem : Consumes item) : Keeps (followed separator item hitem) := by
  intro ts
  induction hlength : ts.length using Nat.strongRecOn generalizing ts with
  | ind n ih =>
    intro xs rest h
    rw [followed_eq] at h
    obtain ⟨more, mid, hmore, h⟩ := reading_bind_eq_ok.mp h
    have hmid := keeps_eat separator ts more mid hmore
    cases more with
    | false =>
      cases h
      omega
    | true =>
      obtain ⟨x, mid', hx, h⟩ := reading_bind_eq_ok.mp h
      have hmid' := hitem mid x mid' hx
      obtain ⟨xs', mid'', hxs, h⟩ := reading_bind_eq_ok.mp h
      have hlast := ih mid'.length (by omega) mid' rfl xs' mid'' hxs
      cases h
      omega

theorem consumes_separated {α : Type} (separator : TokenKind)
    (item : Reading α) (hitem : Consumes item) :
    Consumes (separated separator item hitem) :=
  hitem.bind fun x =>
    (keeps_followed separator item hitem).bind fun xs => keeps_pure (x :: xs)

end Idl
