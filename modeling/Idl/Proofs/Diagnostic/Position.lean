import Idl.Proofs.Text.Lines
import Idl.Span
import Mathlib.Data.List.Basic

/-!
# Offsets and positions

A position is computed from the bytes in front of an offset: their line feeds
are counted, and the bytes behind the last of them.  Here it is compared with
the offsets at which the lines of the whole source start.  A position names the
offset that lies as many bytes behind the start of its line as its column says,
with no line feed on the way (`Position.Names`).  Every offset into a source is
named by exactly one position, and positions are ordered as the offsets they
name.
-/

namespace Idl

open Text

/-- The offsets at which lines start: the first line at zero, and one more
behind each line feed. -/
def lineStarts (bs : List UInt8) : List Nat :=
  0 :: (bs.idxsOf Position.lineFeed).map (· + 1)

namespace Position

/-- The line of the position starts at `start`, and the offset lies on it, in
the column of the position. -/
structure ReachedFrom (bs : List UInt8) (p : Position) (start offset : Nat) :
    Prop where
  starts : (lineStarts bs)[p.line - 1]? = some start
  offset_eq : offset + 1 = start + p.column
  clean : lineFeed ∉ (bs.take offset).drop start

structure Names (bs : List UInt8) (p : Position) (offset : Nat) : Prop where
  line_pos : 1 ≤ p.line
  column_pos : 1 ≤ p.column
  reached : ∃ start, p.ReachedFrom bs start offset

/-- The lexicographic order of positions. -/
def Precedes (p q : Position) : Prop :=
  p.line < q.line ∨ p.line = q.line ∧ p.column < q.column

/-- The position that follows the given bytes, with numbers of any size. -/
def exact (before : List UInt8) : Position where
  line := before.count lineFeed + 1
  column := (before.reverse.takeWhile (· != lineFeed)).length + 1

section
variable {bs before front run : List UInt8} {p q : Position}

/-- As long as there are fewer bytes than numbers, no number is cut. -/
theorem after_eq_exact (h : before.length < maxOffset) :
    after before = exact before := by
  have hline := List.count_le_length (a := lineFeed) (l := before)
  have hcolumn := (List.takeWhile_prefix (· != lineFeed)
    (l := before.reverse)).length_le
  rw [List.length_reverse] at hcolumn
  rw [after, exact, clamp, clamp, Nat.min_eq_left (by omega),
    Nat.min_eq_left (by omega)]

theorem exact_append (hfront : OpensLine lineFeed front)
    (hrun : lineFeed ∉ run) :
    exact (front ++ run) = ⟨front.count lineFeed + 1, run.length + 1⟩ := by
  have hlast : front.reverse.takeWhile (· != lineFeed) = [] := by
    rcases hfront.cases with rfl | ⟨before, rfl⟩
    · rfl
    · simp
  have hbytes : ∀ b ∈ run.reverse, (b != lineFeed) = true := by
    intro b hb
    rw [bne_iff_ne]
    rintro rfl
    exact hrun (List.mem_reverse.mp hb)
  rw [exact, List.count_append, List.count_eq_zero.mpr hrun, Nat.add_zero,
    List.reverse_append, List.takeWhile_append_of_pos hbytes, hlast,
    List.append_nil, List.length_reverse]

/-! ## Starts of lines -/

/-- A line starts behind what opens it, at the place that its line feeds
tell. -/
theorem lineStarts_getElem? (hfront : OpensLine lineFeed front)
    (rest : List UInt8) :
    (lineStarts (front ++ rest))[front.count lineFeed]? =
      some front.length := by
  rcases hfront.cases with rfl | ⟨before, rfl⟩
  · rfl
  · have hcount : (before ++ [lineFeed]).count lineFeed =
        before.count lineFeed + 1 := by
      simp
    rw [hcount, lineStarts, List.getElem?_cons_succ, List.getElem?_map,
      List.append_assoc, List.idxsOf_append, ← List.length_idxsOf,
      List.getElem?_append_right (Nat.le_refl _), Nat.sub_self]
    simp

/-- Between the starts of two lines there is a line feed, directly in front of
the later one. -/
theorem lineFeed_before_start {i j s t : Nat} (hij : i < j)
    (hi : (lineStarts bs)[i]? = some s) (hj : (lineStarts bs)[j]? = some t) :
    ∃ k, s ≤ k ∧ t = k + 1 ∧ bs[k]? = some lineFeed := by
  obtain ⟨j, rfl⟩ : ∃ j', j = j' + 1 := ⟨j - 1, by omega⟩
  rw [lineStarts, List.getElem?_cons_succ, List.getElem?_map,
    Option.map_eq_some_iff] at hj
  obtain ⟨k, hk, rfl⟩ := hj
  obtain ⟨hlt, hfeed⟩ := List.mem_idxsOf_iff_exists_getElem_pos.mp
    (List.mem_of_getElem? hk)
  refine ⟨k, ?_, rfl, by rw [List.getElem?_eq_getElem hlt, beq_iff_eq.mp hfeed]⟩
  cases i with
  | zero =>
      cases hi
      exact Nat.zero_le k
  | succ i =>
      rw [lineStarts, List.getElem?_cons_succ, List.getElem?_map,
        Option.map_eq_some_iff] at hi
      obtain ⟨l, hl, rfl⟩ := hi
      obtain ⟨hil, rfl⟩ := List.getElem?_eq_some_iff.mp hl
      obtain ⟨hjl, rfl⟩ := List.getElem?_eq_some_iff.mp hk
      exact List.pairwise_iff_getElem.mp List.pairwise_idxsOf _ _ hil hjl
        (by omega)

/-! ## Names of offsets -/

variable {a b offset : Nat}

theorem names_exact (h : offset ≤ bs.length) :
    (exact (bs.take offset)).Names bs offset := by
  obtain ⟨front, run, hsplit, hfront, hrun⟩ :=
    exists_opensLine lineFeed (bs.take offset)
  have hlength : front.length + run.length = offset := by
    rw [← List.length_append, ← hsplit, List.length_take, Nat.min_eq_left h]
  have hstart := lineStarts_getElem? hfront (run ++ bs.drop offset)
  rw [← List.append_assoc, ← hsplit, List.take_append_drop] at hstart
  have hexact := exact_append hfront hrun
  rw [← hsplit] at hexact
  rw [hexact]
  refine ⟨Nat.le_add_left .., Nat.le_add_left .., front.length, hstart, ?_, ?_⟩
  · rw [← hlength, Nat.add_assoc]
  · rwa [hsplit, List.drop_left]

theorem Names.line_le (hp : p.Names bs a) (hq : q.Names bs b) (hab : a ≤ b) :
    p.line ≤ q.line := by
  obtain ⟨hpline, hpcolumn, s, hs, hsa, -⟩ := hp
  obtain ⟨hqline, hqcolumn, t, ht, htb, hclean⟩ := hq
  -- If `q` had the earlier line, the line feed that opens the line of `p`
  -- would stand between the start of the line of `q` and its offset.
  refine Nat.not_lt.mp fun hlt => hclean ?_
  obtain ⟨k, htk, rfl, hfeed⟩ := lineFeed_before_start (by omega) ht hs
  refine List.mem_of_getElem? (i := k - t) ?_
  rw [List.getElem?_drop, Nat.add_sub_cancel' htk,
    List.getElem?_take_of_lt (by omega), hfeed]

/-- On one line, positions are told apart by their columns. -/
theorem Names.column_eq (hp : p.Names bs a) (hq : q.Names bs b)
    (hline : p.line = q.line) : p.column + b = q.column + a := by
  obtain ⟨-, -, s, hs, hsa, -⟩ := hp
  obtain ⟨-, -, t, ht, htb, -⟩ := hq
  rw [hline, ht] at hs
  cases hs
  omega

theorem Names.unique (hp : p.Names bs offset) (hq : q.Names bs offset) :
    p = q := by
  have hline := Nat.le_antisymm (hp.line_le hq (Nat.le_refl _))
    (hq.line_le hp (Nat.le_refl _))
  have hcolumn := Nat.add_right_cancel (hp.column_eq hq hline)
  rcases p with ⟨line, column⟩
  rcases q with ⟨line', column'⟩
  exact congrArg₂ Position.mk hline hcolumn

theorem Names.precedes (hp : p.Names bs a) (hq : q.Names bs b) (hab : a < b) :
    p.Precedes q := by
  rcases Nat.lt_or_eq_of_le (hp.line_le hq (Nat.le_of_lt hab)) with hlt | heq
  · exact .inl hlt
  · have hcolumn := hp.column_eq hq heq
    exact .inr ⟨heq, by omega⟩

end

end Position

/-! ## Positions in a source -/

section
variable {source : String}

theorem Span.position_eq_exact (s : Span)
    (hsize : byteLength source.toList < maxOffset) :
    s.position source = .exact ((bytes source).take s.start) := by
  refine Position.after_eq_exact (Nat.lt_of_le_of_lt ?_ hsize)
  rw [← length_bytes]
  exact List.length_take_le' ..

theorem Span.names_position (s : Span)
    (hsize : byteLength source.toList < maxOffset)
    (h : s.start ≤ byteLength source.toList) :
    (s.position source).Names (bytes source) s.start := by
  rw [s.position_eq_exact hsize]
  exact Position.names_exact (length_bytes source ▸ h)

/-- Offsets and positions correspond to each other in order.  An offset past
the end is taken for the end, and nothing else is cut. -/
theorem positions_ordered_as_offsets
    (hsize : byteLength source.toList < maxOffset) :
    (∀ offset ≤ byteLength source.toList, ∀ p : Position,
      (Span.point offset).position source = p ↔
        p.Names (bytes source) offset) ∧
    (∀ a b, a < b → b ≤ byteLength source.toList →
      ((Span.point a).position source).Precedes
        ((Span.point b).position source)) ∧
    (∀ offset, byteLength source.toList ≤ offset →
      (Span.point offset).position source =
        (Span.point (byteLength source.toList)).position source) ∧
    (∀ offset ≤ byteLength source.toList,
      ((bytes source).take offset).length = offset ∧
      (Span.point offset).position source =
        .exact ((bytes source).take offset)) := by
  have hnames : ∀ offset ≤ byteLength source.toList,
      ((Span.point offset).position source).Names (bytes source) offset :=
    fun offset h => (Span.point offset).names_position hsize h
  refine ⟨fun offset h p => ⟨?_, fun hp => ?_⟩, fun a b hab hb => ?_,
    fun offset h => ?_, fun offset h => ⟨?_, ?_⟩⟩
  · rintro rfl
    exact hnames offset h
  · exact (hnames offset h).unique hp
  · exact (hnames a (by omega)).precedes (hnames b hb) hab
  · have hwhole : ∀ n, byteLength source.toList ≤ n →
        (bytes source).take n = bytes source := fun n hn =>
      List.take_of_length_le (length_bytes source ▸ hn)
    rw [Span.position, Span.position, Span.point, Span.point, hwhole _ h,
      hwhole _ (Nat.le_refl _)]
  · rw [List.length_take, length_bytes, Nat.min_eq_left h]
  · exact (Span.point offset).position_eq_exact hsize

/-- Inside a character, on a line feed, directly behind it and at the end. -/
theorem positions_ordered_as_offsets_accentBeforeLineEnd :
    byteLength "é\n\nx".toList < maxOffset ∧
      (⟨1, 2⟩ : Position).Names (bytes "é\n\nx") 1 ∧
      (⟨1, 3⟩ : Position).Names (bytes "é\n\nx") 2 ∧
      (⟨2, 1⟩ : Position).Names (bytes "é\n\nx") 3 ∧
      (⟨3, 2⟩ : Position).Names (bytes "é\n\nx") 5 ∧
      ((Span.point 2).position "é\n\nx").Precedes
        ((Span.point 3).position "é\n\nx") ∧
      (Span.point 9).position "é\n\nx" = ⟨3, 2⟩ := by
  have hsize : byteLength "é\n\nx".toList < maxOffset := by decide
  obtain ⟨hnames, hordered, hpast, -⟩ := positions_ordered_as_offsets hsize
  exact ⟨hsize, (hnames 1 (by decide) _).mp (by decide),
    (hnames 2 (by decide) _).mp (by decide),
    (hnames 3 (by decide) _).mp (by decide),
    (hnames 5 (by decide) _).mp (by decide),
    hordered 2 3 (by decide) (by decide),
    (hpast 9 (by decide)).trans (by decide)⟩

end

end Idl
