import Idl.Proofs.Text.Bytes
import Mathlib.Algebra.Group.Nat.Defs

/-!
# Masked bytes

Masking puts a dash in the place of every byte from `0x80` on.  Whatever such
bytes stand for, reading them neither swallows an ASCII byte nor makes one up:
the text that is read is the masked one, but for single characters that are not
ASCII where the masked text has one or more dashes.

The reader may stop inside a character.  The bytes it has taken of it are then
dashes in the masked text, and whatever ends the character, the number it has
got is that of a character that is not ASCII (`Unfinished.Sound`).
-/

namespace Idl.Text

def maskByte (b : UInt8) : UInt8 := if b < 0x80 then b else 45

/-- The character of a masked byte. -/
def maskChar (b : UInt8) : Char := Char.ofNat (maskByte b).toNat

/-- The text of masked bytes. -/
def masked (bs : List UInt8) : String := String.ofList (bs.map maskChar)

/-- The second text has dashes where the first one has characters that are not
ASCII: at least one for each. -/
inductive Dashed : List Char → List Char → Prop where
  | nil : Dashed [] []
  | ascii {c : Char} {cs ds : List Char} (hc : c.toNat < 128)
      (h : Dashed cs ds) : Dashed (c :: cs) (c :: ds)
  | wide {c : Char} {cs ds : List Char} (n : Nat) (hc : 128 ≤ c.toNat)
      (h : Dashed cs ds) :
      Dashed (c :: cs) (List.replicate (n + 1) '-' ++ ds)

namespace Unfinished

/-- The least number that the character can still get. -/
def least (part : Unfinished) : Nat :=
  (part.value * 64 + part.low.toNat % 64) * 64 ^ part.due

/-- Every number that the character can still get is below the bound. -/
def bound (part : Unfinished) : Nat :=
  (part.value * 64 + part.high.toNat % 64 + 1) * 64 ^ part.due

/-- However the character goes on, it becomes one that is not ASCII. -/
structure Sound (part : Unfinished) : Prop where
  low : 0x80 ≤ part.low
  high : part.high ≤ 0xBF
  wide : 128 ≤ part.least
  scalar : part.bound ≤ 0xD800 ∨
    (0xE000 ≤ part.least ∧ part.bound ≤ 0x110000)

end Unfinished

/-- What the reader has made of the bytes whose masked text is given. -/
def Tracks (done ds : List Char) : Option Unfinished → Prop
  | none => Dashed done.reverse ds
  | some part => part.Sound ∧ ∃ es n,
      ds = es ++ List.replicate (n + 1) '-' ∧ Dashed done.reverse es

section
variable {b : UInt8} {bs : List UInt8} {c : Char}
  {cs cs' ds ds' done : List Char} {part : Unfinished}

/-! ## Masked characters -/

theorem toNat_ofNat (n : Nat) (h : n.isValidChar) :
    (Char.ofNat n).toNat = n := by
  rw [Char.ofNat, dif_pos h]
  rfl

theorem toNat_maskChar (b : UInt8) :
    (maskChar b).toNat = (maskByte b).toNat ∧ (maskByte b).toNat < 128 := by
  have hb : (maskByte b).toNat < 128 := by
    rw [maskByte]
    split
    next h => exact UInt8.lt_iff_toNat_lt.mp h
    next => decide
  exact ⟨toNat_ofNat _ (.inl (by omega)), hb⟩

theorem maskChar_of_lt (h : b < 0x80) : maskChar b = Char.ofNat b.toNat := by
  rw [maskChar, maskByte, if_pos h]

theorem maskChar_of_le (h : 0x80 ≤ b) : maskChar b = '-' := by
  rw [maskChar, maskByte, if_neg (UInt8.not_lt.mpr h)]
  rfl

/-- The masked text is the text of the masked bytes. -/
theorem bytes_masked (bs : List UInt8) :
    bytes (masked bs) = bs.map maskByte := by
  rw [bytes, masked, String.toList_ofList]
  induction bs with
  | nil => rfl
  | cons b bs ih =>
      obtain ⟨hnat, hlt⟩ := toNat_maskChar b
      rw [List.map_cons, List.flatMap_cons, ih,
        encodeChar_of_lt (by rwa [hnat]), hnat, UInt8.ofNat_toNat]
      rfl

/-! ## Dashes for characters -/

theorem Dashed.append (hcs : Dashed cs ds) (h : Dashed cs' ds') :
    Dashed (cs ++ cs') (ds ++ ds') := by
  induction hcs with
  | nil => exact h
  | ascii hc _ ih => exact .ascii hc ih
  | @wide c cs ds n hc _ ih =>
      rw [List.append_assoc]
      exact .wide n hc ih

theorem dashed_replicate (n : Nat) (hc : 128 ≤ c.toNat) :
    Dashed [c] (List.replicate (n + 1) '-') := by
  have h := Dashed.wide n hc .nil
  rwa [List.append_nil] at h

/-! ## Unfinished characters -/

namespace Unfinished

/-- A byte that opens a character leaves it sound. -/
theorem sound_of_lead (h : lead b = .opens part) : part.Sound := by
  have hb := b.toNat_lt
  revert h
  fun_cases lead b
  case case1 | case2 | case10 => exact nofun
  all_goals
    rintro ⟨⟩
    simp only [UInt8.lt_iff_toNat_lt, ← UInt8.toNat_inj,
      UInt8.reduceToNat] at *
    refine ⟨by dsimp only; decide, by dsimp only; decide, ?_, ?_⟩ <;>
      simp only [least, bound, UInt8.reduceToNat] <;> omega

/-- A byte that goes on with a character picks a number between its least and
its greatest. -/
theorem Sound.extend_mem (h : part.Sound) (hlow : part.low ≤ b)
    (hhigh : b ≤ part.high) :
    part.value * 64 + part.low.toNat % 64 ≤ part.extend b ∧
      part.extend b ≤ part.value * 64 + part.high.toNat % 64 := by
  have hleast := UInt8.le_iff_toNat_le.mp h.low
  have hgreatest := UInt8.le_iff_toNat_le.mp h.high
  rw [UInt8.le_iff_toNat_le] at hlow hhigh
  simp only [UInt8.reduceToNat] at hleast hgreatest
  rw [Unfinished.extend]
  omega

theorem Sound.extend {due : Nat} (h : part.Sound) (hlow : part.low ≤ b)
    (hhigh : b ≤ part.high) (hdue : part.due = due + 1) :
    Sound ⟨part.extend b, due, 0x80, 0xBF⟩ := by
  obtain ⟨hleast, hgreatest⟩ := h.extend_mem hlow hhigh
  have hwide := h.wide
  have hscalar := h.scalar
  have hpow : 64 ^ part.due = 64 * 64 ^ due := by
    rw [hdue, Nat.pow_succ, Nat.mul_comm]
  have hlower : part.least ≤ least ⟨part.extend b, due, 0x80, 0xBF⟩ := by
    rw [least, least, hpow, ← Nat.mul_assoc]
    refine Nat.mul_le_mul_right _ ?_
    simp only [UInt8.reduceToNat]
    omega
  have hupper : bound ⟨part.extend b, due, 0x80, 0xBF⟩ ≤ part.bound := by
    rw [bound, bound, hpow, ← Nat.mul_assoc]
    refine Nat.mul_le_mul_right _ ?_
    simp only [UInt8.reduceToNat]
    omega
  exact ⟨by dsimp only; decide, by dsimp only; decide, by omega, by omega⟩

theorem Sound.toNat_extend (h : part.Sound) (hlow : part.low ≤ b)
    (hhigh : b ≤ part.high) (hdue : part.due = 0) :
    128 ≤ (Char.ofNat (part.extend b)).toNat := by
  obtain ⟨hleast, hgreatest⟩ := h.extend_mem hlow hhigh
  have hwide := h.wide
  have hscalar := h.scalar
  rw [least, hdue, Nat.pow_zero, Nat.mul_one] at hwide hscalar
  rw [bound, hdue, Nat.pow_zero, Nat.mul_one] at hscalar
  have hvalid : (part.extend b).isValidChar := by
    rcases hscalar with hbelow | ⟨habove, hbelow⟩
    · exact .inl (by omega)
    · exact .inr ⟨by omega, by omega⟩
  rw [toNat_ofNat _ hvalid]
  omega

end Unfinished

/-! ## Reading bytes -/

theorem lt_of_lead (h : lead b = .whole c) : b < 0x80 := by
  revert h
  fun_cases lead b
  case case1 hb => exact fun _ => hb
  all_goals exact nofun

theorem tracks_startChar (h : Dashed done.reverse ds) (b : UInt8) :
    Tracks (startChar done b).1 (ds ++ [maskChar b]) (startChar done b).2 := by
  by_cases hb : b < 0x80
  · obtain ⟨hnat, hlt⟩ := toNat_maskChar b
    have hlead : lead b = .whole (maskChar b) := by
      rw [lead, if_pos hb, maskChar_of_lt hb]
    rw [startChar, hlead, Tracks, List.reverse_cons]
    exact h.append (.ascii (by omega) .nil)
  · rw [maskChar_of_le (UInt8.not_lt.mp hb), startChar]
    cases hlead : lead b with
    | whole c => exact absurd (lt_of_lead hlead) hb
    | opens part => exact ⟨Unfinished.sound_of_lead hlead, ds, 0, rfl, h⟩
    | stray =>
        rw [Tracks, List.reverse_cons]
        exact h.append (dashed_replicate 0 (by decide))

theorem tracks_readByte {part : Option Unfinished} (h : Tracks done ds part)
    (b : UInt8) :
    Tracks (readByte done part b).1 (ds ++ [maskChar b])
      (readByte done part b).2 := by
  cases part with
  | none => exact tracks_startChar h b
  | some part =>
      obtain ⟨hsound, ds, n, rfl, hdone⟩ := h
      rw [readByte]
      split
      next hb =>
        rw [Bool.and_eq_true, decide_eq_true_iff, decide_eq_true_iff] at hb
        obtain ⟨hlow, hhigh⟩ := hb
        rw [maskChar_of_le (UInt8.le_trans hsound.low hlow), List.append_assoc,
          ← List.replicate_succ']
        split
        next hdue =>
          rw [Tracks, List.reverse_cons]
          exact hdone.append
            (dashed_replicate _ (hsound.toNat_extend hlow hhigh hdue))
        next due hdue =>
          exact ⟨hsound.extend hlow hhigh hdue, ds, n + 1, rfl, hdone⟩
      next =>
        -- The character breaks off in front of the byte, which starts afresh.
        refine tracks_startChar ?_ b
        rw [List.reverse_cons]
        exact hdone.append (dashed_replicate n (by decide))

theorem dashed_decodeFrom {part : Option Unfinished} (h : Tracks done ds part)
    (bs : List UInt8) :
    Dashed (decodeFrom done part bs) (ds ++ bs.map maskChar) := by
  induction bs generalizing done ds part with
  | nil =>
      rw [List.map_nil, List.append_nil]
      cases part with
      | none => exact h
      | some part =>
          obtain ⟨-, ds, n, rfl, hdone⟩ := h
          rw [decodeFrom, List.reverse_cons]
          exact hdone.append (dashed_replicate n (by decide))
  | cons b bs ih =>
      have hnext := ih (tracks_readByte h b)
      rwa [List.append_assoc] at hnext

/-- Decoding bytes gives the masked text with characters for dashes. -/
theorem dashed_decode (bs : List UInt8) :
    Dashed (decode bs).toList (masked bs).toList := by
  have hstart : Tracks [] [] none := Dashed.nil
  rw [decode, masked, String.toList_ofList, String.toList_ofList]
  exact dashed_decodeFrom hstart bs

end

end Idl.Text
