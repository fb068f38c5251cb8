import Idl.Proofs.Grammar.Types
import Idl.Reading.Value

/-!
# Values of constants are read as the grammar has them

The reading cuts a value off in one piece, line ends included, and the
grammar builds it token by token.  The two meet because a line end adds
nothing to the text.
-/

namespace Idl.Grammar

theorem valueText_cons (t : Token) (ts : List Token) :
    valueText (t :: ts) = valuePart t ++ valueText ts := by
  simp [valueText]

theorem takeWhile_inValue_cons {t : Token} (h : inValue t = true)
    (ts : List Token) :
    valueText ((t :: ts).takeWhile inValue) =
      valuePart t ++ valueText (ts.takeWhile inValue) := by
  rw [List.takeWhile_cons_of_pos h, valueText_cons]

theorem inValue_of_endLine (t : Token) (h : t.kind = .endLine) :
    inValue t = true := by
  simp [inValue, h]

theorem valueText_takeWhile_skipLines (ts : List Token) :
    valueText ((skipLines ts).takeWhile inValue) =
      valueText (ts.takeWhile inValue) := by
  induction ts with
  | nil => rfl
  | cons t ts ih =>
      by_cases hkind : t.kind = .endLine
      · rw [skipLines_cons_endLine hkind, ih, takeWhile_inValue_cons (inValue_of_endLine t hkind)]
        simp [valuePart, hkind]
      · have hsettled : skipLines (t :: ts) = t :: ts := settled_cons.mpr hkind
        rw [hsettled]

theorem valueRun_takeWhile (ts : List Token) :
    ValueRun (valueText (ts.takeWhile inValue)) (skipLines ts)
      (ts.dropWhile inValue) := by
  induction ts with
  | nil =>
      have hnext : ∀ kind, ¬ Ahead kind (skipLines []) := by
        intro kind hparts
        rcases hparts with ⟨t, ht, -⟩
        cases ht
      exact .nil (hnext _) (hnext _) (hnext _)
  | cons t ts ih =>
      by_cases hvalue : inValue t = true
      · rw [takeWhile_inValue_cons hvalue, List.dropWhile_cons_of_pos hvalue]
        by_cases hkind : t.kind = .endLine
        · simpa [skipLines_cons_endLine hkind, valuePart, hkind] using ih
        · have hsettled : skipLines (t :: ts) = t :: ts :=
            settled_cons.mpr hkind
          rw [hsettled]
          have hcases : t.kind = .identifier ∨ t.kind = .literal ∨
              t.kind = .less := by
            simpa [inValue, hkind, or_assoc] using hvalue
          rcases hcases with hword | hliteral | hless
          · simpa [valuePart, hword] using ValueRun.word (.of_cons ts hword) ih
          · simpa [valuePart, hliteral] using
              ValueRun.literal (.of_cons ts hliteral) ih
          · simpa [valuePart, hless] using ValueRun.less (.of_cons ts hless) ih
      · have hkind : t.kind ≠ .endLine := fun h =>
          hvalue (inValue_of_endLine t h)
        have hsettled : skipLines (t :: ts) = t :: ts := settled_cons.mpr hkind
        rw [List.takeWhile_cons_of_neg hvalue,
          List.dropWhile_cons_of_neg hvalue, hsettled]
        simp only [inValue, Bool.or_eq_true, beq_iff_eq, not_or] at hvalue
        refine .nil ?_ ?_ ?_ <;> simp [Ahead, next?_eq, hsettled, hvalue]

theorem takeWhile_inValue_step {t : Token} {ts b : List Token}
    (hvalue : inValue t = true) (hrest : skipLines ts = skipLines b) :
    valueText ((t :: ts).takeWhile inValue) =
        valuePart t ++ valueText (b.takeWhile inValue) ∧
      (t :: ts).dropWhile inValue = b.dropWhile inValue := by
  rw [takeWhile_inValue_cons hvalue, List.dropWhile_cons_of_pos hvalue,
    ← valueText_takeWhile_skipLines ts, hrest,
    valueText_takeWhile_skipLines, ← dropWhile_skipLines inValue_of_endLine ts, hrest,
    dropWhile_skipLines inValue_of_endLine]
  exact ⟨rfl, rfl⟩

theorem takeWhile_of_valueRun {v : String} {a b : List Token}
    (h : ValueRun v a b) :
    valueText (a.takeWhile inValue) = v ∧
      a.dropWhile inValue = skipLines b := by
  induction h with
  | @nil a hword hliteral hless =>
      rw [← valueText_takeWhile_skipLines, ← dropWhile_skipLines inValue_of_endLine]
      cases ha : skipLines a with
      | nil => simp [valueText]
      | cons t us =>
          have hline : t.kind ≠ .endLine := by
            have hsettled := settled_skipLines a
            rw [ha] at hsettled
            exact settled_cons.mp hsettled
          simp only [Ahead, next?_eq, ha, List.head?_cons, Option.some.injEq,
            exists_eq_left'] at hword hliteral hless
          have hvalue : ¬ inValue t = true := by
            simp [inValue, hword, hliteral, hless, hline]
          rw [List.takeWhile_cons_of_neg hvalue,
            List.dropWhile_cons_of_neg hvalue]
          exact ⟨rfl, rfl⟩
  | word hword _ ih =>
      rcases hword.front with ⟨t, ts, rfl, hkind, rfl, hrest⟩
      have hpart : valuePart t = t.text := by simp [valuePart, hkind]
      have hvalue : inValue t = true := by simp [inValue, hkind]
      obtain ⟨htext, hdrop⟩ := takeWhile_inValue_step hvalue hrest
      rw [htext, hdrop, ih.1, ih.2, hpart]
      exact ⟨rfl, rfl⟩
  | literal hliteral _ ih =>
      rcases hliteral.front with ⟨t, ts, rfl, hkind, rfl, hrest⟩
      have hpart : valuePart t = t.text := by simp [valuePart, hkind]
      have hvalue : inValue t = true := by simp [inValue, hkind]
      obtain ⟨htext, hdrop⟩ := takeWhile_inValue_step hvalue hrest
      rw [htext, hdrop, ih.1, ih.2, hpart]
      exact ⟨rfl, rfl⟩
  | less hless _ ih =>
      rcases hless with ⟨text, hless⟩
      rcases hless.front with ⟨t, ts, rfl, hkind, -, hrest⟩
      have hpart : valuePart t = "<" := by simp [valuePart, hkind]
      have hvalue : inValue t = true := by simp [inValue, hkind]
      obtain ⟨htext, hdrop⟩ := takeWhile_inValue_step hvalue hrest
      rw [htext, hdrop, ih.1, ih.2, hpart]
      exact ⟨rfl, rfl⟩

theorem reads_constantValue : Reads constantValue Value where
  sound := by
    intro ts x rest hts h
    cases ts with
    | nil => cases h
    | cons t ts =>
        have hrun := valueRun_takeWhile ts
        rw [constantValue] at h
        split at h
        next hkind =>
          have hvalue : inValue t = true := by simp [inValue, hkind]
          cases h
          refine ⟨?_, settled_dropWhile inValue_of_endLine _⟩
          rw [takeWhile_inValue_cons hvalue, List.dropWhile_cons_of_pos hvalue]
          simpa [valuePart, hkind] using Value.word (.of_cons ts hkind) hrun
        next hkind =>
          have hvalue : inValue t = true := by simp [inValue, hkind]
          cases h
          refine ⟨?_, settled_dropWhile inValue_of_endLine _⟩
          rw [takeWhile_inValue_cons hvalue, List.dropWhile_cons_of_pos hvalue]
          simpa [valuePart, hkind] using Value.literal (.of_cons ts hkind) hrun
        next => cases h
  complete := by
    intro ts x rest h
    cases h with
    | word hword hmore =>
        rcases hword.front with ⟨t, us, rfl, hkind, rfl, hrest⟩
        have hvalue : inValue t = true := by simp [inValue, hkind]
        have hsettled : skipLines (t :: us) = t :: us :=
          settled_cons.mpr (by simp [hkind])
        have hwhole := takeWhile_of_valueRun (.word hword hmore)
        rw [hsettled, constantValue]
        simp only [hkind, hwhole.1, hwhole.2]
    | literal hliteral hmore =>
        rcases hliteral.front with ⟨t, us, rfl, hkind, rfl, hrest⟩
        have hsettled : skipLines (t :: us) = t :: us :=
          settled_cons.mpr (by simp [hkind])
        have hwhole := takeWhile_of_valueRun (.literal hliteral hmore)
        rw [hsettled, constantValue]
        simp only [hkind, hwhole.1, hwhole.2]

end Idl.Grammar
