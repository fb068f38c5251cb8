import Idl.Diagnostic
import Idl.Proofs.Diagnostic.Position

/-!
# The line that a diagnostic quotes

The position of a span is found by counting bytes and the line below the
message by cutting the text into lines.  Both speak of the same line: as many
line feeds stand in front of it as its number says, and none of its characters
has a byte that could be taken for one.  Only at the end of a source that is
empty or ends with its last line there is nothing to quote.
-/

namespace Idl

open Text

/-- Where a span starts in a source; past the end it is the end. -/
def Span.offsetIn (s : Span) (source : String) : Nat :=
  min s.start (byteLength source.toList)

/-- The offset is the end of a source without an open last line. -/
def BehindLines (source : List Char) (offset : Nat) : Prop :=
  offset = byteLength source ∧
    (source = [] ∨ source.getLast? = some '\n')

instance (source : List Char) (offset : Nat) :
    Decidable (BehindLines source offset) :=
  inferInstanceAs (Decidable (_ ∧ _))

/-- The first line of a diagnostic. -/
def diagnosticHead (path : String) (p : Position) (message : String) :
    String :=
  path ++ ":" ++ (p.line.repr ++ ":" ++ p.column.repr) ++ ": error: " ++
    message

/-! ## The bytes of a line -/

theorem Text.OpensLine.bytes {front : List Char} (h : OpensLine '\n' front) :
    OpensLine Position.lineFeed (front.flatMap String.utf8EncodeChar) := by
  rcases h.cases with rfl | ⟨before, rfl⟩
  · exact opensLine_nil
  · rw [List.flatMap_append]
    exact opensLine_concat _

/-- The bytes of the line feeds of a text are its line feed bytes. -/
theorem count_lineFeed (cs : List Char) :
    (cs.flatMap String.utf8EncodeChar).count Position.lineFeed =
      cs.count '\n' :=
  count_flatMap_encodeChar (d := '\n') (by decide) cs

section
variable {source : String} {offset : Nat} {front line rest : List Char}

/-- The bytes in front of an offset, up to the line of the offset and on
it. -/
theorem Text.LineAt.take_bytes
    (h : LineAt source.toList offset front line rest) :
    (bytes source).take offset = front.flatMap String.utf8EncodeChar ++
      (line.flatMap String.utf8EncodeChar).take
        (offset - byteLength front) := by
  have hfrom := h.from_le
  have hto := h.le_to
  have hrest : offset - byteLength front - byteLength line = 0 := by omega
  rw [bytes, h.whole, List.flatMap_append, List.flatMap_append,
    List.take_append, List.take_append, length_flatMap_encodeChar,
    length_flatMap_encodeChar, hrest, List.take_zero, List.append_nil,
    List.take_of_length_le (length_flatMap_encodeChar front ▸ hfrom)]

/-- The number of a line is told by the line feeds in front of it, and the
column by the bytes on it. -/
theorem Text.LineAt.exact_take
    (h : LineAt source.toList offset front line rest) :
    Position.exact ((bytes source).take offset) =
      ⟨front.count '\n' + 1, offset - byteLength front + 1⟩ := by
  have hto := h.le_to
  have hclean : Position.lineFeed ∉ line.flatMap String.utf8EncodeChar := by
    rw [← List.count_eq_zero, count_lineFeed]
    exact List.count_eq_zero.mpr h.clean
  have hrun : Position.lineFeed ∉ (line.flatMap String.utf8EncodeChar).take
      (offset - byteLength front) :=
    fun hmem => hclean (List.mem_of_mem_take hmem)
  rw [h.take_bytes, Position.exact_append h.opens.bytes hrun, count_lineFeed,
    List.length_take, length_flatMap_encodeChar, Nat.min_eq_left (by omega)]

/-- There is no line to quote only at the end of the source, where no line is
open. -/
theorem Text.LineAt.behindLines_iff
    (h : LineAt source.toList offset front line rest) :
    BehindLines source.toList offset ↔ line = [] ∧ rest = [] := by
  have hto := h.le_to
  rw [BehindLines, h.whole, byteLength_append, byteLength_append]
  constructor
  · rintro ⟨hend, hlast⟩
    have hrest : rest = [] := by
      by_contra hne
      have hpos := byteLength_pos hne
      omega
    subst hrest
    refine ⟨?_, rfl⟩
    by_contra hne
    rw [List.append_nil, List.getLast?_append_of_ne_nil _ hne] at hlast
    rcases hlast with hnil | hfeed
    · exact hne (List.append_eq_nil_iff.mp hnil).2
    · exact h.clean (List.mem_of_getLast? hfeed)
  · rintro ⟨rfl, rfl⟩
    have hfrom := h.from_le
    refine ⟨Nat.le_antisymm hto hfrom, ?_⟩
    rw [List.append_nil, List.append_nil]
    rcases h.opens.cases with rfl | ⟨before, rfl⟩
    · exact .inl rfl
    · exact .inr List.getLast?_concat

/-! ## Diagnostics -/

theorem Span.position_offsetIn (s : Span) (source : String) :
    s.position source = (Span.point (s.offsetIn source)).position source := by
  rw [Span.position, Span.position, Span.point, Span.offsetIn,
    ← length_bytes, ← List.take_eq_take_min]

/-- The position of a span, by the line on which the span starts. -/
theorem Span.position_eq (s : Span)
    (hsize : byteLength source.toList < maxOffset)
    (h : LineAt source.toList (s.offsetIn source) front line rest) :
    s.position source = ⟨front.count '\n' + 1,
      s.offsetIn source - byteLength front + 1⟩ := by
  rw [s.position_offsetIn, Span.position_eq_exact _ hsize]
  exact h.exact_take

/-- The line that is quoted, if there is one to quote. -/
theorem Span.quoted_line (s : Span)
    (hsize : byteLength source.toList < maxOffset)
    (h : LineAt source.toList (s.offsetIn source) front line rest) :
    (lines source)[(s.position source).line - 1]? =
      if BehindLines source.toList (s.offsetIn source) then none
      else some (String.ofList (trimLine line rest)) := by
  have hplace : (s.position source).line - 1 = front.count '\n' := by
    rw [s.position_eq hsize h]
    rfl
  simp only [hplace, h.lines_getElem?, h.behindLines_iff]

theorem diagnostic_eq (path message : String) (s : Span)
    (hsize : byteLength source.toList < maxOffset)
    (h : LineAt source.toList (s.offsetIn source) front line rest) :
    diagnostic path source s message =
      diagnosticHead path (s.position source) message ++
        if BehindLines source.toList (s.offsetIn source) then ""
        else snippet (String.ofList (trimLine line rest))
          (s.offsetIn source - byteLength front + 1) := by
  have hposition := s.position_eq hsize h
  simp only [diagnostic, s.quoted_line hsize h]
  by_cases hbehind : BehindLines source.toList (s.offsetIn source)
  · simp only [if_pos hbehind]
    rfl
  · simp only [if_neg hbehind, hposition]
    rfl

/-- Where a line is quoted the caret stands behind as many blanks as there are
bytes in front of the start of the span on that line. -/
theorem caretWidth?_eq (s : Span)
    (hsize : byteLength source.toList < maxOffset)
    (h : LineAt source.toList (s.offsetIn source) front line rest) :
    caretWidth? source s =
      if BehindLines source.toList (s.offsetIn source) then none
      else some (s.offsetIn source - byteLength front) := by
  have hposition := s.position_eq hsize h
  simp only [caretWidth?, s.quoted_line hsize h]
  by_cases hbehind : BehindLines source.toList (s.offsetIn source)
  · simp only [if_pos hbehind, Option.map_none]
  · simp only [if_neg hbehind, Option.map_some, hposition,
      Nat.add_sub_cancel]

/-- A diagnostic starts with the path, the position of the span and the
message, and quotes the line that holds the start of the span, if there is
one. -/
theorem diagnostic_quotes_line (path message : String) (span : Span)
    (hsize : byteLength source.toList < maxOffset) :
    ∃ p front line rest,
      p.Names (bytes source) (span.offsetIn source) ∧
      LineAt source.toList (span.offsetIn source) front line rest ∧
      diagnostic path source span message =
        diagnosticHead path p message ++
          if BehindLines source.toList (span.offsetIn source) then ""
          else "\n  " ++ String.ofList (trimLine line rest) ++ "\n  " ++
            String.ofList (List.replicate (p.column - 1) ' ') ++ "^" := by
  have hle : span.offsetIn source ≤ byteLength source.toList :=
    Nat.min_le_right ..
  obtain ⟨front, line, rest, hline⟩ := exists_lineAt hle
  have hnames := (Span.point (span.offsetIn source)).names_position hsize hle
  rw [← span.position_offsetIn] at hnames
  refine ⟨span.position source, front, line, rest, hnames, hline, ?_⟩
  rw [diagnostic_eq path message span hsize hline,
    span.position_eq hsize hline]
  rfl

/-- The span starts on the line feed behind a carriage return. -/
theorem diagnostic_quotes_line_carriageReturn :
    byteLength "a\n\"é\"\r\nb".toList < maxOffset ∧
      diagnostic "m" "a\n\"é\"\r\nb" ⟨7, 8⟩ "x" =
        "m:2:6: error: x\n  \"é\"\n       ^" ∧
      ∃ p front line rest,
        p.Names (bytes "a\n\"é\"\r\nb") 7 ∧
        LineAt "a\n\"é\"\r\nb".toList 7 front line rest ∧
        diagnostic "m" "a\n\"é\"\r\nb" ⟨7, 8⟩ "x" =
          diagnosticHead "m" p "x" ++
            ("\n  " ++ String.ofList (trimLine line rest) ++ "\n  " ++
              String.ofList (List.replicate (p.column - 1) ' ') ++ "^") := by
  have hsize : byteLength "a\n\"é\"\r\nb".toList < maxOffset := by decide
  exact ⟨hsize, by decide, diagnostic_quotes_line "m" "x" ⟨7, 8⟩ hsize⟩

end

end Idl
