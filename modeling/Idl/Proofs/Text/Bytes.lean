import Idl.Text.Utf8

/-!
# The bytes of characters

An ASCII character is written as one byte, its own number.  Every other
character is written in bytes from `0x80` on, so no byte of it can be taken for
an ASCII character.  So a text has as many bytes as characters only if all of
them are ASCII.
-/

namespace Idl.Text

section
variable {b : UInt8} {c d : Char} {cs : List Char}

theorem encodeChar_of_lt (h : c.toNat < 128) :
    String.utf8EncodeChar c = [UInt8.ofNat c.toNat] := by
  have hc : c.val.toNat ≤ 127 := Nat.le_of_lt_succ h
  simp only [String.utf8EncodeChar, if_pos hc]
  rfl

theorem le_of_mem_encodeChar (h : 128 ≤ c.toNat)
    (hb : b ∈ String.utf8EncodeChar c) : 128 ≤ b := by
  have hc : ¬ c.val.toNat ≤ 127 := Nat.not_le.mpr h
  revert hb
  fun_cases String.utf8EncodeChar c
  · contradiction
  all_goals
    simp only [List.mem_cons, List.not_mem_nil, or_false]
    intro hb
    rw [UInt8.le_iff_toNat_le]
    rcases hb with rfl | rfl | rfl | rfl <;> simp <;> omega

theorem encodeChar_ne_nil (c : Char) : String.utf8EncodeChar c ≠ [] := by
  refine List.ne_nil_of_length_pos ?_
  rw [String.length_utf8EncodeChar]
  exact c.utf8Size_pos

/-- An ASCII character is told apart from all others by its byte. -/
theorem byte_eq_iff (hc : c.toNat < 128) (hd : d.toNat < 128) :
    UInt8.ofNat c.toNat = UInt8.ofNat d.toNat ↔ c = d := by
  constructor
  · intro h
    have hnat := congrArg UInt8.toNat h
    rw [UInt8.toNat_ofNat', UInt8.toNat_ofNat'] at hnat
    exact Char.toNat_inj.mp (by omega)
  · rintro rfl
    rfl

theorem count_encodeChar (hd : d.toNat < 128) :
    (String.utf8EncodeChar c).count (UInt8.ofNat d.toNat) =
      if c = d then 1 else 0 := by
  by_cases hc : c.toNat < 128
  · rw [encodeChar_of_lt hc, List.count_singleton]
    simp only [beq_iff_eq, byte_eq_iff hc hd]
  · have hne : c ≠ d := fun h => hc (h ▸ hd)
    rw [if_neg hne, List.count_eq_zero]
    intro hmem
    have hle := le_of_mem_encodeChar (Nat.not_lt.mp hc) hmem
    rw [UInt8.le_iff_toNat_le, UInt8.toNat_ofNat'] at hle
    have h128 : (128 : UInt8).toNat = 128 := rfl
    omega

/-- The byte of an ASCII character stands where the character does and nowhere
else. -/
theorem count_flatMap_encodeChar (hd : d.toNat < 128) (cs : List Char) :
    (cs.flatMap String.utf8EncodeChar).count (UInt8.ofNat d.toNat) =
      cs.count d := by
  induction cs with
  | nil => rfl
  | cons c cs ih =>
      rw [List.flatMap_cons, List.count_append, ih, count_encodeChar hd,
        List.count_cons, Nat.add_comm]
      simp only [beq_iff_eq]

theorem byteLength_pos (h : cs ≠ []) : 0 < byteLength cs := by
  cases cs with
  | nil => exact absurd rfl h
  | cons c cs =>
      rw [byteLength_cons]
      exact Nat.add_pos_left c.utf8Size_pos _

theorem length_flatMap_encodeChar (cs : List Char) :
    (cs.flatMap String.utf8EncodeChar).length = byteLength cs := by
  induction cs with
  | nil => rfl
  | cons c cs ih =>
      rw [List.flatMap_cons, List.length_append, ih,
        String.length_utf8EncodeChar, byteLength_cons]

theorem length_bytes (source : String) :
    (bytes source).length = byteLength source.toList :=
  length_flatMap_encodeChar _

theorem length_le_byteLength (cs : List Char) :
    cs.length ≤ byteLength cs := by
  induction cs with
  | nil => exact Nat.le_refl 0
  | cons c cs ih =>
      have hpos := c.utf8Size_pos
      rw [byteLength_cons, List.length_cons]
      omega

/-- Characters are counted as their bytes are if all of them are ASCII. -/
theorem byteLength_eq_length_iff :
    byteLength cs = cs.length ↔ ∀ c ∈ cs, c.toNat < 128 := by
  induction cs with
  | nil => simp [byteLength]
  | cons c cs ih =>
      have hpos := c.utf8Size_pos
      have hle := length_le_byteLength cs
      have hone : c.utf8Size = 1 ↔ c.toNat < 128 := by
        rw [Char.utf8Size_eq_one_iff, UInt32.le_iff_toNat_le]
        exact Nat.lt_succ_iff.symm
      rw [byteLength_cons, List.length_cons, List.forall_mem_cons, ← hone,
        ← ih]
      omega

end

/-! ## ASCII bytes as characters -/

theorem decodeFrom_of_lt {done : List Char} {bs : List UInt8}
    (h : ∀ b ∈ bs, b < 0x80) :
    decodeFrom done none bs =
      done.reverse ++ bs.map fun b => Char.ofNat b.toNat := by
  induction bs generalizing done with
  | nil => simp [decodeFrom]
  | cons b bs ih =>
      obtain ⟨hb, hbs⟩ := List.forall_mem_cons.mp h
      have hread : readByte done none b = (Char.ofNat b.toNat :: done, none) := by
        simp only [readByte, startChar, lead, if_pos hb]
      rw [decodeFrom, hread, ih hbs]
      simp

/-- Each ASCII byte is the character of its number. -/
theorem decode_of_lt {bs : List UInt8} (h : ∀ b ∈ bs, b < 0x80) :
    decode bs = String.ofList (bs.map fun b => Char.ofNat b.toNat) := by
  rw [decode, decodeFrom_of_lt h]
  rfl

end Idl.Text
