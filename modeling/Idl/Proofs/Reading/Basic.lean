import Idl.Reading

/-!
# Readings in sequence

What a sequence of readings does, from what its parts do on the streams they
are given.
-/

namespace Idl

section
variable {α β : Type} {r : Reading α} {f g : α → Reading β}
  {ts mid rest : List Token} {x : α} {y : β}

theorem reading_bind_eq_of_ok (h : r ts = .ok (x, mid)) :
    (r >>= f) ts = f x mid := by
  change (Except.bind (r ts) fun p => f p.1 p.2) = f x mid
  rw [h]
  rfl

theorem reading_bind_eq_of_error {e : Failure} (h : r ts = .error e) :
    (r >>= f) ts = .error e := by
  change (Except.bind (r ts) fun p => f p.1 p.2) = .error e
  rw [h]
  rfl

/-- A sequence of two readings fails where the first does, or where the second
does behind the first. -/
theorem reading_bind_eq_error {e : Failure} :
    (r >>= f) ts = .error e ↔
      r ts = .error e ∨ ∃ x mid, r ts = .ok (x, mid) ∧ f x mid = .error e := by
  constructor
  · intro h
    cases hr : r ts with
    | error failure =>
        rw [reading_bind_eq_of_error hr] at h
        cases h
        exact .inl rfl
    | ok p =>
        rcases p with ⟨x, mid⟩
        rw [reading_bind_eq_of_ok hr] at h
        exact .inr ⟨x, mid, rfl, h⟩
  · rintro (h | ⟨x, mid, hr, h⟩)
    · exact reading_bind_eq_of_error h
    · rw [reading_bind_eq_of_ok hr, h]

theorem reading_bind_congr {s : Reading α} (hr : r ts = s ts)
    (hf : ∀ x mid, s ts = .ok (x, mid) → f x mid = g x mid) :
    (r >>= f) ts = (s >>= g) ts := by
  cases hs : s ts with
  | error failure =>
      rw [hs] at hr
      rw [reading_bind_eq_of_error hr, reading_bind_eq_of_error hs]
  | ok p =>
      rcases p with ⟨x, mid⟩
      rw [hs] at hr
      rw [reading_bind_eq_of_ok hr, reading_bind_eq_of_ok hs, hf x mid hs]

theorem reading_map_eq_ok {f : α → β} :
    (f <$> r) ts = .ok (y, rest) ↔ ∃ x, r ts = .ok (x, rest) ∧ y = f x := by
  rw [map_eq_pure_bind, reading_bind_eq_ok]
  constructor
  · intro hparts
    rcases hparts with ⟨x, mid, hx, hy⟩
    cases hy
    exact ⟨x, hx, rfl⟩
  · intro hparts
    rcases hparts with ⟨x, hx, rfl⟩
    exact ⟨x, rest, hx, rfl⟩

end

end Idl
