import Idl.Proofs.Assembly.Spans
import Idl.Proofs.Diagnostic.Quotation
import Idl.Proofs.Listing.Quoted
import Idl.Proofs.Token.Automaton

/-!
# The caret of a diagnostic

A fault of a source starts between two characters: a lexical one in front of
the piece that is wrong, and any other one in front of a token or behind the
last one.  So there are certain characters in front of it on its line, and a
caret below the fault has as many blanks in front as there are such characters.
What the caret has in front instead is a blank for each of their bytes.  The two
agree exactly if those characters are ASCII (`caret_below_fault_iff`); behind
any other character the caret stands too far to the right.
-/

namespace Idl

open Text

/-- An offset between two characters of a text. -/
def IsBoundary (source : List Char) (offset : Nat) : Prop :=
  ∃ before after, source = before ++ after ∧ byteLength before = offset

/-- The last line of a text is a caret, behind the margin and the given number
of blanks. -/
def CaretBehind (blanks : Nat) (text : String) : Prop :=
  ∃ above, text = above ++ "\n  " ++
    String.ofList (List.replicate blanks ' ') ++ "^"

/-! ## Where faults start -/

section
variable {source : String} {ts : List Token}

theorem LexError.isBoundary {e : LexError}
    (hsize : byteLength source.toList ≤ maxOffset)
    (h : lex source = .error e) : IsBoundary source.toList e.span.start := by
  have hstart : ∀ front behind : List Char, source.toList = front ++ behind →
      clamp (0 + byteLength front) = byteLength front := by
    intro front behind hsource
    rw [hsource, byteLength_append] at hsize
    rw [Nat.zero_add, clamp, Nat.min_eq_left (by omega)]
  have hjudged : Scan.Judged 0 source.toList (lex source) :=
    Scan.judged_tokensFrom 0 _
  rw [h] at hjudged
  cases hjudged with
  | unclosed hcs => exact ⟨_, _, hcs, (hstart _ _ hcs).symm⟩
  | unfinished hcs => exact ⟨_, _, hcs, (hstart _ _ hcs).symm⟩

/-- The parser reports a fault at a token or behind the last one.  The run is
compared with itself. -/
theorem ParseError.span_eq {e : ParseError} (h : parse ts = .error e) :
    (∃ t ∈ ts, e.span = t.span) ∨ e.span = .point (endOffset ts) := by
  have hsame : Respanned ts ts := List.forall₂_same.mpr fun _ _ => ⟨rfl, rfl⟩
  have hcoupled := run_abreast (l := upToSpans) hsame
  unfold parse at h
  generalize Assembly.start.run ts = r at hcoupled h
  cases hcoupled with
  | @ok a _ habreast =>
      cases habreast.openAlike with
      | none hclosed =>
          simp only [hclosed] at h
          cases h
      | innermost ht _ hopen =>
          simp only [hopen] at h
          cases h
          exact .inl ⟨_, List.mem_of_getElem? ht, rfl⟩
  | error hfail =>
      cases h
      cases FailAbreast.stopsAlike (l := upToSpans) hsame hfail with
      | ended => exact .inr rfl
      | token ht =>
          rw [report_drop ht]
          exact .inl ⟨_, List.mem_of_getElem? ht, rfl⟩

theorem ParseError.isBoundary {e : ParseError}
    (hsize : byteLength source.toList ≤ maxOffset)
    (hlex : lex source = .ok ts) (h : parse ts = .error e) :
    IsBoundary source.toList e.span.start := by
  have hstart : Underway [] source.toList ts :=
    ⟨tiles_of_lexed hlex, .inl nofun, hsize⟩
  rcases e.span_eq h with ⟨t, ht, hspan⟩ | hend
  · obtain ⟨-, before, after, hslice, -⟩ := hstart.token_at ht
    exact ⟨before, _, hslice.eq, by rw [hspan, hslice.start]⟩
  · rw [← List.append_nil ts] at hstart
    obtain ⟨front, rest, hsource, hfront, -⟩ := hstart.split
    exact ⟨front, rest, hsource, by rw [hend, hfront]; rfl⟩

theorem SourceError.isBoundary {e : SourceError}
    (hsize : byteLength source.toList ≤ maxOffset)
    (h : parseSource source = .error e) :
    IsBoundary source.toList e.span.start := by
  unfold parseSource at h
  split at h
  next failure hlex =>
    cases h
    exact failure.isBoundary hsize hlex
  next ts hlex =>
    split at h
    next failure hparse =>
      cases h
      exact failure.isBoundary hsize hlex hparse
    next => cases h

end

/-! ## Characters in front of the caret -/

section
variable {source : List Char} {offset : Nat} {front line rest : List Char}

theorem eq_nil_of_byteLength_le {cs : List Char} (h : byteLength cs ≤ 0) :
    cs = [] := by
  by_contra hne
  exact absurd (byteLength_pos hne) (Nat.not_lt.mpr h)

/-- An offset between two characters cuts its line in two. -/
theorem Text.LineAt.exists_head (h : LineAt source offset front line rest)
    (hboundary : IsBoundary source offset) :
    ∃ head tail, line = head ++ tail ∧ byteLength (front ++ head) = offset := by
  obtain ⟨before, after, hsource, rfl⟩ := hboundary
  have hfrom := h.from_le
  have hto := h.le_to
  rw [h.whole] at hsource
  -- The offset is between the ends of the line, so nothing is left over where
  -- the boundary would lie in front of the line or behind it.
  rcases List.append_eq_append_iff.mp hsource with
    ⟨head, rfl, hline⟩ | ⟨more, rfl, -⟩
  · rw [byteLength_append] at hto
    rcases List.append_eq_append_iff.mp hline with
      ⟨more, rfl, -⟩ | ⟨tail, rfl, -⟩
    · rw [byteLength_append] at hto
      have hmore : more = [] := eq_nil_of_byteLength_le (by omega)
      exact ⟨line, [], (List.append_nil _).symm, by rw [hmore, List.append_nil]⟩
    · exact ⟨head, tail, rfl, rfl⟩
  · rw [byteLength_append] at hfrom
    have hmore : more = [] := eq_nil_of_byteLength_le (by omega)
    exact ⟨[], line, rfl, by rw [hmore, List.append_nil, List.append_nil]⟩

end

section
variable {m n : Nat} {text : String}

theorem CaretBehind.toList_reverse (h : CaretBehind m text) :
    ∃ above, text.toList.reverse =
      '^' :: (List.replicate (m + 2) ' ' ++ '\n' :: above) := by
  obtain ⟨above, rfl⟩ := h
  refine ⟨above.toList.reverse, ?_⟩
  rw [List.replicate_add]
  simp

/-- There is one number of blanks in front of the caret. -/
theorem CaretBehind.unique (hm : CaretBehind m text)
    (hn : CaretBehind n text) : m = n := by
  -- Read from the end, the blanks go on up to the line feed above.
  obtain ⟨above, habove⟩ := hm.toList_reverse
  obtain ⟨above', habove'⟩ := hn.toList_reverse
  rw [habove, List.cons.injEq] at habove'
  have hblank : ∀ k, ∀ c ∈ List.replicate k ' ', (c == ' ') = true := by
    intro k c hc
    rw [List.eq_of_mem_replicate hc]
    rfl
  have hblanks := (append_inj_of_stop (hblank _) (hblank _) rfl rfl
    habove'.2).1
  have hlength := congrArg List.length hblanks
  simpa using hlength

end

/-! ## Diagnostics of faults -/

section
variable {source : String} {e : SourceError}

/-- A fault is reported with a caret behind as many blanks as there are bytes
in front of the fault on its line.  The caret is below the fault exactly if the
characters there are ASCII. -/
theorem caret_below_fault_iff (path : String)
    (hsize : byteLength source.toList < maxOffset)
    (h : parseSource source = .error e)
    (hquoted : ¬ BehindLines source.toList e.span.start) :
    ∃ front head tail rest,
      LineAt source.toList e.span.start front (head ++ tail) rest ∧
      byteLength (front ++ head) = e.span.start ∧
      CaretBehind (byteLength head)
        (diagnostic path source e.span e.message) ∧
      (CaretBehind head.length (diagnostic path source e.span e.message) ↔
        ∀ c ∈ head, c.toNat < 128) := by
  have hboundary := e.isBoundary (Nat.le_of_lt hsize) h
  have hle : e.span.start ≤ byteLength source.toList := by
    obtain ⟨before, after, hsource, hstart⟩ := hboundary
    rw [hsource, byteLength_append]
    omega
  have hoffset : e.span.offsetIn source = e.span.start := Nat.min_eq_left hle
  obtain ⟨front, line, rest, hline⟩ := exists_lineAt hle
  obtain ⟨head, tail, rfl, hhead⟩ := hline.exists_head hboundary
  have hcolumn : e.span.start - byteLength front = byteLength head := by
    rw [← hhead, byteLength_append, Nat.add_sub_cancel_left]
  have hcaret : CaretBehind (byteLength head)
      (diagnostic path source e.span e.message) := by
    rw [diagnostic_eq path e.message e.span hsize (hoffset ▸ hline), hoffset,
      if_neg hquoted, hcolumn, snippet, Text.blanks, Nat.add_sub_cancel]
    refine ⟨diagnosticHead path (e.span.position source) e.message ++
      ("\n  " ++ String.ofList (trimLine (head ++ tail) rest)), ?_⟩
    simp only [String.append_assoc]
  refine ⟨front, head, tail, rest, hline, hhead, hcaret, ?_⟩
  rw [← byteLength_eq_length_iff]
  constructor
  · exact fun hbelow => hcaret.unique hbelow
  · exact fun hlength => hlength ▸ hcaret

/-- Parsing that fails can be followed step by step. -/
theorem parseSource_eq_error_of_runningFor {ts : List Token}
    {failure : Failure} (hlex : lex source = .ok ts)
    (h : runningFor (ts.length + 1) .start ts = .error failure) :
    parseSource source =
      .error (.grammatical (failure.report (endOffset ts))) := by
  rw [runningFor_eq _ _ ts (Nat.lt_succ_self _), running_eq_error] at h
  rw [parseSource, hlex]
  simp only [parse, h]

end

/-- A brace that closes nothing, behind a literal. -/
def braceBehindAccent : String := "\"é\" \x7d\n"

def unmatchedBrace : SourceError :=
  .grammatical ⟨.unmatchedClose, ⟨5, 6⟩⟩

theorem parseSource_braceBehindAccent :
    parseSource braceBehindAccent = .error unmatchedBrace := by
  have hlex : lex braceBehindAccent = .ok
      [⟨.literal, "é", ⟨0, 4⟩⟩, ⟨.closeBrace, "", ⟨5, 6⟩⟩,
        ⟨.endLine, "", ⟨6, 7⟩⟩] := by
    decide +kernel
  have hrun : runningFor 4 .start
      [⟨.literal, "é", ⟨0, 4⟩⟩, ⟨.closeBrace, "", ⟨5, 6⟩⟩,
        ⟨.endLine, "", ⟨6, 7⟩⟩] = .error ⟨.unmatchedClose,
          [⟨.closeBrace, "", ⟨5, 6⟩⟩, ⟨.endLine, "", ⟨6, 7⟩⟩]⟩ := by
    decide +kernel
  exact parseSource_eq_error_of_runningFor hlex hrun

theorem caret_below_fault_iff_braceBehindAccent :
    byteLength braceBehindAccent.toList < maxOffset ∧
      parseSource braceBehindAccent = .error unmatchedBrace ∧
      ¬ BehindLines braceBehindAccent.toList unmatchedBrace.span.start ∧
      ∃ front head tail rest,
        LineAt braceBehindAccent.toList unmatchedBrace.span.start front
          (head ++ tail) rest ∧
        byteLength (front ++ head) = unmatchedBrace.span.start ∧
        CaretBehind (byteLength head) (diagnostic "m" braceBehindAccent
          unmatchedBrace.span unmatchedBrace.message) ∧
        (CaretBehind head.length (diagnostic "m" braceBehindAccent
            unmatchedBrace.span unmatchedBrace.message) ↔
          ∀ c ∈ head, c.toNat < 128) := by
  have hsize : byteLength braceBehindAccent.toList < maxOffset := by decide
  have hquoted :
      ¬ BehindLines braceBehindAccent.toList unmatchedBrace.span.start := by
    decide
  exact ⟨hsize, parseSource_braceBehindAccent, hquoted,
    caret_below_fault_iff "m" hsize parseSource_braceBehindAccent hquoted⟩

/-- Four characters stand in front of the brace on its line, and five blanks in
front of the caret. -/
theorem caret_besideFault_behindAccent :
    parseSource braceBehindAccent = .error unmatchedBrace ∧
      LineAt braceBehindAccent.toList unmatchedBrace.span.start []
        (['"', 'é', '"', ' '] ++ ['\x7d']) ['\n'] ∧
      byteLength ['"', 'é', '"', ' '] = unmatchedBrace.span.start ∧
      diagnostic "m" braceBehindAccent unmatchedBrace.span
          unmatchedBrace.message =
        "m:1:6: error: unmatched closing brace\n  \"é\" \x7d\n       ^" ∧
      ¬ CaretBehind ['"', 'é', '"', ' '].length
        (diagnostic "m" braceBehindAccent unmatchedBrace.span
          unmatchedBrace.message) := by
  have htext : diagnostic "m" braceBehindAccent unmatchedBrace.span
        unmatchedBrace.message =
      "m:1:6: error: unmatched closing brace\n  \"é\" \x7d\n       ^" := by
    decide
  have hcaret : CaretBehind 5
      "m:1:6: error: unmatched closing brace\n  \"é\" \x7d\n       ^" :=
    ⟨"m:1:6: error: unmatched closing brace\n  \"é\" \x7d", by decide⟩
  have hline : LineAt braceBehindAccent.toList unmatchedBrace.span.start []
      (['"', 'é', '"', ' '] ++ ['\x7d']) ['\n'] :=
    ⟨rfl, opensLine_nil, by decide, by simp, by decide, by decide⟩
  refine ⟨parseSource_braceBehindAccent, hline, rfl, htext, ?_⟩
  rw [htext]
  exact fun hbelow => absurd (hcaret.unique hbelow) (by decide)

end Idl
