import Idl.Command.Outcome
import Idl.Proofs.Command.Arguments
import Idl.Proofs.Diagnostic.Caret
import Idl.Proofs.Token.Tiling

/-!
# How a command ends

A command that is not misused ends well exactly if the file can be read and its
text has no fault; then the whole listing is written and nothing is said, and in
all other cases something is said and nothing is written (`Outcome.Justified`).

All this holds as long as nothing has to be padded too far.  A fault far to the
right on its line, or a module that is nested very deep, breaks the command off
(`Overwide`), with the lines written that stand in front of the one that is too
deep.  `run_justified_iff` says that nothing else can go wrong, for every list
of arguments and every way files can be read.
-/

namespace Idl

/-! ## Writing -/

namespace ListingLine

theorem fits_iff (l : ListingLine) :
    l.fits = true ↔ 2 * l.depth ≤ Text.maxWidth :=
  decide_eq_true_iff

section
variable {ls front back : List ListingLine} {deep : ListingLine}

theorem writeAll_of_fits (h : ∀ l ∈ ls, 2 * l.depth ≤ Text.maxWidth) :
    writeAll ls = ⟨renderAll ls, true⟩ := by
  have hfits : ∀ l ∈ ls, l.fits = true := fun l hl => l.fits_iff.mpr (h l hl)
  rw [writeAll, List.takeWhile_eq_self_iff.mpr hfits,
    List.all_eq_true.mpr hfits]

theorem writeAll_of_deep (h : ∀ l ∈ front, 2 * l.depth ≤ Text.maxWidth)
    (hdeep : Text.maxWidth < 2 * deep.depth) :
    writeAll (front ++ deep :: back) = ⟨renderAll front, false⟩ := by
  have hfits : ∀ l ∈ front, l.fits = true := fun l hl =>
    l.fits_iff.mpr (h l hl)
  have hnot : ¬ deep.fits = true := fun hyes =>
    Nat.not_lt.mpr (deep.fits_iff.mp hyes) hdeep
  rw [writeAll, List.takeWhile_append_of_pos hfits,
    List.takeWhile_cons_of_neg hnot, List.append_nil, List.all_append,
    List.all_cons, Bool.eq_false_iff.mpr hnot, Bool.false_and, Bool.and_false]

/-- Either all lines are written, or those in front of one that is too deep. -/
theorem writeAll_cases (ls : List ListingLine) :
    (∀ l ∈ ls, 2 * l.depth ≤ Text.maxWidth) ∨
      ∃ front deep back, ls = front ++ deep :: back ∧
        (∀ l ∈ front, 2 * l.depth ≤ Text.maxWidth) ∧
        Text.maxWidth < 2 * deep.depth := by
  induction ls with
  | nil => exact .inl nofun
  | cons l ls ih =>
      by_cases hl : 2 * l.depth ≤ Text.maxWidth
      · rcases ih with hall | ⟨front, deep, back, rfl, hfront, hdeep⟩
        · exact .inl (List.forall_mem_cons.mpr ⟨hl, hall⟩)
        · exact .inr ⟨l :: front, deep, back, rfl,
            List.forall_mem_cons.mpr ⟨hl, hfront⟩, hdeep⟩
      · exact .inr ⟨[], l, ls, rfl, nofun, Nat.not_le.mp hl⟩

end

end ListingLine

theorem diagnostic?_eq_none_iff {path source message : String} {span : Span} :
    diagnostic? path source span message = none ↔
      ∃ width, caretWidth? source span = some width ∧
        Text.maxWidth < width := by
  cases hcaret : caretWidth? source span with
  | none => simp [diagnostic?, hcaret]
  | some width => simp [diagnostic?, hcaret, Text.fits]

namespace Command

/-! ## What the arguments ask for -/

/-- The listing that the arguments ask for, of a file that can be read and has
no fault that matters for it. -/
inductive Lists (read : String → Except FileError (List UInt8))
    (arguments : List String) : String → Prop where
  | tokens {path : String} {content : List UInt8} {ts : List Token}
      (hpath : paths arguments = [path]) (hread : read path = .ok content)
      (hlex : lex (Text.decode content) = .ok ts)
      (hflag : ∃ argument ∈ arguments, TokenFlag argument) :
      Lists read arguments (tokenListing ts)
  | tree {path : String} {content : List UInt8} {ts : List Token}
      {t : ModuleTree} (hpath : paths arguments = [path])
      (hread : read path = .ok content)
      (hlex : lex (Text.decode content) = .ok ts)
      (hflag : ∀ argument ∈ arguments, ¬ TokenFlag argument)
      (hparse : parse ts = .ok t) :
      Lists read arguments (ListingLine.renderAll t.listing)

/-- The outcome is the one that the arguments and the file give reason for. -/
structure Outcome.Justified (read : String → Except FileError (List UInt8))
    (report : String → String) (arguments : List String) (o : Outcome) :
    Prop where
  exitCode : o.exitCode = 0 ∨ o.exitCode = 1 ∨ o.exitCode = 2
  misused : o.exitCode = 2 ↔ Misused arguments
  reported : o.exitCode = 2 → ∃ e, Misuse arguments e ∧ o = .ofUsageError e
  listed : ¬ Misused arguments →
    (o.exitCode = 0 ↔ ∃ text, Lists read arguments text)
  stdout : o.exitCode = 0 → Lists read arguments o.stdout
  stdout_failed : o.exitCode ≠ 0 → o.stdout = ""
  stderr : o.stderr = "" ↔ o.exitCode = 0
  reordered : o.exitCode ≠ 2 → ∀ arguments' : List String,
    arguments'.Perm arguments → run read report arguments' = o

/-- A fault of a source that matters for what the arguments ask for. -/
inductive Faulty (arguments : List String) (source : String) :
    SourceError → Prop where
  | lexical {e : LexError} (hlex : lex source = .error e) :
      Faulty arguments source (.lexical e)
  | grammatical {ts : List Token} {e : ParseError}
      (hlex : lex source = .ok ts)
      (hflag : ∀ argument ∈ arguments, ¬ TokenFlag argument)
      (hparse : parse ts = .error e) :
      Faulty arguments source (.grammatical e)

/-- Something has to be padded too far, and this much is written by then. -/
inductive Overwide (read : String → Except FileError (List UInt8))
    (arguments : List String) : String → Prop where
  | caret {path : String} {content : List UInt8} {e : SourceError}
      {width : Nat} (hused : ¬ Misused arguments)
      (hpath : paths arguments = [path]) (hread : read path = .ok content)
      (hfault : Faulty arguments (Text.decode content) e)
      (hcaret : caretWidth? (Text.decode content) e.span = some width)
      (hwide : Text.maxWidth < width) : Overwide read arguments ""
  | line {path : String} {content : List UInt8} {ts : List Token}
      {t : ModuleTree} {front back : List ListingLine} {deep : ListingLine}
      (hused : ¬ Misused arguments) (hpath : paths arguments = [path])
      (hread : read path = .ok content)
      (hlex : lex (Text.decode content) = .ok ts)
      (hflag : ∀ argument ∈ arguments, ¬ TokenFlag argument)
      (hparse : parse ts = .ok t)
      (hlines : t.listing = front ++ deep :: back)
      (hfront : ∀ l ∈ front, 2 * l.depth ≤ Text.maxWidth)
      (hwide : Text.maxWidth < 2 * deep.depth) :
      Overwide read arguments (ListingLine.renderAll front)

section
variable {read : String → Except FileError (List UInt8)}
  {report : String → String} {arguments arguments' : List String}
  {options : Options} {source text written : String}

theorem Overwide.not_misused (h : Overwide read arguments written) :
    ¬ Misused arguments := by
  cases h with
  | caret hused => exact hused
  | line hused => exact hused

/-- Without a flag the tree is asked for. -/
theorem tokens_eq_false_iff (h : Options.ofArguments arguments = .ok options) :
    options.tokens = false ↔ ∀ argument ∈ arguments, ¬ TokenFlag argument := by
  obtain ⟨-, -, hflags⟩ := ofArguments_eq_ok_iff.mp h
  rw [Bool.eq_false_iff, Ne, hflags]
  simp

/-! ## Listings and faults -/

theorem listing_eq_ok_iff {tokens : Bool} {w : Output} :
    listing tokens source = .ok w ↔
      ∃ ts, lex source = .ok ts ∧
        (tokens = true ∧ w = ⟨tokenListing ts, true⟩ ∨
          tokens = false ∧ ∃ t, parse ts = .ok t ∧
            w = ListingLine.writeAll t.listing) := by
  unfold listing parseSource
  cases tokens with
  | true => cases lex source <;> simp [eq_comm]
  | false =>
      cases lex source with
      | error => simp
      | ok ts =>
          cases hparse : parse ts with
          | error e => simp [hparse]
          | ok t => simp [hparse, eq_comm]

theorem listing_eq_error_iff {tokens : Bool} {e : SourceError} :
    listing tokens source = .error e ↔
      (∃ f, lex source = .error f ∧ e = .lexical f) ∨
        tokens = false ∧ ∃ ts f, lex source = .ok ts ∧ parse ts = .error f ∧
          e = .grammatical f := by
  unfold listing parseSource
  cases tokens with
  | true => cases lex source <;> simp [eq_comm]
  | false =>
      cases lex source with
      | error => simp [eq_comm]
      | ok ts =>
          cases hparse : parse ts with
          | error e => simp [hparse, eq_comm]
          | ok t => simp [hparse]

theorem faulty_iff (h : Options.ofArguments arguments = .ok options)
    {e : SourceError} :
    Faulty arguments source e ↔ listing options.tokens source = .error e := by
  rw [listing_eq_error_iff, tokens_eq_false_iff h]
  constructor
  · rintro (hlex | ⟨hlex, hflag, hparse⟩)
    · exact .inl ⟨_, hlex, rfl⟩
    · exact .inr ⟨hflag, _, _, hlex, hparse, rfl⟩
  · rintro (⟨f, hlex, rfl⟩ | ⟨hflag, ts, f, hlex, hparse, rfl⟩)
    · exact .lexical hlex
    · exact .grammatical hlex hflag hparse

/-- What the arguments ask for is listed, though not all of it need be
written. -/
theorem Lists.listing_eq (h : Lists read arguments text)
    (hoptions : Options.ofArguments arguments = .ok options) :
    ∃ bytes w, read options.path = .ok bytes ∧
      listing options.tokens (Text.decode bytes) = .ok w := by
  obtain ⟨-, hpaths, hflags⟩ := ofArguments_eq_ok_iff.mp hoptions
  cases h with
  | tokens hpath hread hlex hflag =>
      cases hpaths.symm.trans hpath
      exact ⟨_, _, hread, listing_eq_ok_iff.mpr
        ⟨_, hlex, .inl ⟨hflags.mpr hflag, rfl⟩⟩⟩
  | tree hpath hread hlex hflag hparse =>
      cases hpaths.symm.trans hpath
      have htokens := (tokens_eq_false_iff hoptions).mpr hflag
      exact ⟨_, _, hread, listing_eq_ok_iff.mpr
        ⟨_, hlex, .inr ⟨htokens, _, hparse, rfl⟩⟩⟩

/-! ## What is said -/

theorem ofUsageError_stderr_ne (e : UsageError) :
    (Outcome.ofUsageError e).stderr ≠ "" := by
  simp [Outcome.ofUsageError, Outcome.failed]

theorem ofFileError_stderr_ne (path : String) (e : FileError) :
    (Outcome.ofFileError path e).stderr ≠ "" := by
  simp [Outcome.ofFileError, Outcome.failed]

/-! ## Commands with options -/

/-- A command is broken off where something has to be padded too far. -/
theorem Overwide.ofContent_eq (h : Overwide read arguments written)
    (hoptions : Options.ofArguments arguments = .ok options) :
    Outcome.ofContent report options (read options.path) =
      .brokenOff report written := by
  obtain ⟨-, hpaths, -⟩ := ofArguments_eq_ok_iff.mp hoptions
  cases h with
  | caret _ hpath hread hfault hcaret hwide =>
      cases hpaths.symm.trans hpath
      rw [hread, Outcome.ofContent, Outcome.ofSource,
        (faulty_iff hoptions).mp hfault]
      simp only [diagnostic?_eq_none_iff.mpr ⟨_, hcaret, hwide⟩]
  | line _ hpath hread hlex hflag hparse hlines hfront hwide =>
      cases hpaths.symm.trans hpath
      have hlisting := listing_eq_ok_iff.mpr ⟨_, hlex,
        .inr ⟨(tokens_eq_false_iff hoptions).mpr hflag, _, hparse, rfl⟩⟩
      rw [hlines, ListingLine.writeAll_of_deep hfront hwide] at hlisting
      rw [hread, Outcome.ofContent, Outcome.ofSource, hlisting]
      rfl

theorem Overwide.run_eq (h : Overwide read arguments written)
    (hperm : arguments'.Perm arguments) :
    run read report arguments' = .brokenOff report written := by
  obtain ⟨options, hoptions⟩ := exists_options h.not_misused
  rw [run, ofArguments_perm hperm hoptions]
  exact h.ofContent_eq hoptions

theorem Overwide.not_justified (h : Overwide read arguments written) :
    ¬ (run read report arguments).Justified read report arguments := by
  intro hjustified
  have hcode := hjustified.exitCode
  rw [h.run_eq (.refl _)] at hcode
  rcases hcode with hcode | hcode | hcode <;> cases hcode

/-- Either the listing is written, or something is said, or the command is
broken off. -/
theorem ofContent_cases
    (hoptions : Options.ofArguments arguments = .ok options) :
    (∃ text, Lists read arguments text ∧
      Outcome.ofContent report options (read options.path) =
        ⟨0, text, ""⟩) ∨
    ((¬ ∃ text, Lists read arguments text) ∧ ∃ message, message ≠ "" ∧
      Outcome.ofContent report options (read options.path) =
        .failed 1 message) ∨
    ∃ written, Overwide read arguments written := by
  have hused := not_misused_of_ok hoptions
  obtain ⟨-, hpaths, hflags⟩ := ofArguments_eq_ok_iff.mp hoptions
  cases hread : read options.path with
  | error e =>
      refine .inr (.inl ⟨?_, _, ofFileError_stderr_ne options.path e, rfl⟩)
      rintro ⟨text, hlists⟩
      obtain ⟨bytes, w, hbytes, -⟩ := hlists.listing_eq hoptions
      rw [hread] at hbytes
      cases hbytes
  | ok bytes =>
      rw [Outcome.ofContent, Outcome.ofSource]
      cases hlisting : listing options.tokens (Text.decode bytes) with
      | error e =>
          cases hdiagnostic :
              diagnostic? options.path (Text.decode bytes) e.span e.message with
          | none =>
              obtain ⟨width, hcaret, hwide⟩ :=
                diagnostic?_eq_none_iff.mp hdiagnostic
              exact .inr (.inr ⟨_, .caret hused hpaths hread
                ((faulty_iff hoptions).mpr hlisting) hcaret hwide⟩)
          | some message =>
              refine .inr (.inl ⟨?_, message ++ "\n", by simp, ?_⟩)
              · rintro ⟨text, hlists⟩
                obtain ⟨bytes', w, hbytes, hok⟩ := hlists.listing_eq hoptions
                cases hread.symm.trans hbytes
                cases hlisting.symm.trans hok
              · simp only [hdiagnostic]
      | ok w =>
          obtain ⟨ts, hlex, ⟨htokens, rfl⟩ | ⟨htokens, t, hparse, rfl⟩⟩ :=
            listing_eq_ok_iff.mp hlisting
          · exact .inl ⟨_, .tokens hpaths hread hlex (hflags.mp htokens), rfl⟩
          · have hflag := (tokens_eq_false_iff hoptions).mp htokens
            rcases ListingLine.writeAll_cases t.listing with
              hall | ⟨front, deep, back, hlines, hfront, hdeep⟩
            · refine .inl ⟨_, .tree hpaths hread hlex hflag hparse, ?_⟩
              rw [ListingLine.writeAll_of_fits hall]
              rfl
            · exact .inr (.inr ⟨_, .line hused hpaths hread hlex hflag hparse
                hlines hfront hdeep⟩)

end

/-- A command ends as its arguments and the file give reason for, exactly if
nothing has to be padded too far.  Otherwise it is broken off, in whatever order
the arguments are given, with what is written by then. -/
theorem run_justified_iff (read : String → Except FileError (List UInt8))
    (report : String → String) (arguments : List String) :
    ((run read report arguments).Justified read report arguments ↔
      ¬ ∃ written, Overwide read arguments written) ∧
    ∀ written, Overwide read arguments written →
      ∀ arguments' : List String, arguments'.Perm arguments →
        run read report arguments' = .brokenOff report written := by
  refine ⟨⟨?_, fun hnarrow => ?_⟩, fun _ h _ hperm => h.run_eq hperm⟩
  · rintro hjustified ⟨written, h⟩
    exact h.not_justified hjustified
  cases hoptions : Options.ofArguments arguments with
  | error e =>
      have hrun : run read report arguments = .ofUsageError e := by
        rw [run, hoptions]
      have hmisused := misused_of_error hoptions
      rw [hrun]
      exact {
        exitCode := .inr (.inr rfl)
        misused := iff_of_true rfl hmisused
        reported := fun _ => ⟨e, misuse_of_ofArguments hoptions, rfl⟩
        listed := fun h => absurd hmisused h
        stdout := nofun
        stdout_failed := fun _ => rfl
        stderr := iff_of_false (ofUsageError_stderr_ne e) nofun
        reordered := fun h => absurd rfl h }
  | ok options =>
      have hmisused := not_misused_of_ok hoptions
      have hrun : ∀ arguments' : List String, arguments'.Perm arguments →
          run read report arguments' =
            .ofContent report options (read options.path) := by
        intro arguments' hperm
        rw [run, ofArguments_perm hperm hoptions]
      rw [hrun arguments (.refl _)]
      rcases ofContent_cases hoptions with
        ⟨text, hlists, houtcome⟩ | ⟨hnone, message, hmessage, houtcome⟩ | hwide
      · rw [houtcome] at hrun ⊢
        exact {
          exitCode := .inl rfl
          misused := iff_of_false nofun hmisused
          reported := nofun
          listed := fun _ => iff_of_true rfl ⟨text, hlists⟩
          stdout := fun _ => hlists
          stdout_failed := fun h => absurd rfl h
          stderr := iff_of_true rfl rfl
          reordered := fun _ => hrun }
      · rw [houtcome] at hrun ⊢
        exact {
          exitCode := .inr (.inl rfl)
          misused := iff_of_false nofun hmisused
          reported := nofun
          listed := fun _ => iff_of_false nofun hnone
          stdout := nofun
          stdout_failed := fun _ => rfl
          stderr := iff_of_false hmessage nofun
          reordered := fun _ => hrun }
      · exact absurd hwide hnarrow

/-! ## A fault far to the right -/

open Text Grammar

/-- A brace that closes nothing, behind so many blanks. -/
def braceBehind (n : Nat) : List Char := List.replicate n ' ' ++ ['\x7d']

def braceBytes (n : Nat) : List UInt8 := List.replicate n 32 ++ [125]

theorem decode_braceBytes (n : Nat) :
    decode (braceBytes n) = String.ofList (braceBehind n) := by
  have hascii : ∀ b ∈ braceBytes n, b < 128 := by
    intro b hb
    rcases List.mem_append.mp hb with hb | hb
    · rw [List.eq_of_mem_replicate hb]
      decide
    · rw [List.mem_singleton.mp hb]
      decide
  rw [decode_of_lt hascii, braceBytes, List.map_append, List.map_replicate]
  rfl

theorem byteLength_blanks (n : Nat) :
    byteLength (List.replicate n ' ') = n := by
  have hlength := byteLength_eq_length_iff.mpr fun c
      (hc : c ∈ List.replicate n ' ') => by
    rw [List.eq_of_mem_replicate hc]
    decide
  rw [hlength, List.length_replicate]

theorem lex_braceBehind {n : Nat} (hn : n < maxOffset) :
    lex (String.ofList (braceBehind n)) =
      .ok [⟨.closeBrace, "", ⟨n, n + 1⟩⟩] := by
  have hblank : ∀ c ∈ List.replicate n ' ', isBlank c = true := by
    intro c hc
    rw [List.eq_of_mem_replicate hc]
    rfl
  have hgap : Gap (List.replicate n ' ') ['\x7d'] := by
    have hnone : Gap [] ['\x7d'] := .nil
    have hblanks := Gap.blanks hblank hnone
    rwa [List.append_nil] at hblanks
  have hbrace : Lexed n ['\x7d'] [⟨.closeBrace, "", ⟨n, n + 1⟩⟩] :=
    lexed_spelled (t := ⟨.closeBrace, "", ⟨n, n + 1⟩⟩) (.mark (by decide))
      ⟨nofun, nofun⟩ (Span.ofRange_of_le (Nat.le_succ n) hn).symm
      (congrArg (tokensFrom [] _) pieces_nil)
  have hlexed : Lexed 0 (braceBehind n) [⟨.closeBrace, "", ⟨n, n + 1⟩⟩] := by
    rw [braceBehind, lexed_gap hgap, byteLength_blanks, Nat.zero_add]
    exact hbrace
  rw [lex, String.toList_ofList]
  exact hlexed

theorem parse_brace (n : Nat) :
    parse [⟨.closeBrace, "", ⟨n, n + 1⟩⟩] =
      .error ⟨.unmatchedClose, ⟨n, n + 1⟩⟩ := by
  have hread : readStatement .global ⟨.closeBrace, "", ⟨n, n + 1⟩⟩ [] =
      .error ⟨.unmatchedClose, [⟨.closeBrace, "", ⟨n, n + 1⟩⟩]⟩ := rfl
  exact parse_eq_error_of_readStatement hread

theorem caretWidth?_braceBehind {n : Nat} (hn : n + 1 < maxOffset) :
    caretWidth? (String.ofList (braceBehind n)) ⟨n, n + 1⟩ = some n := by
  have hlength : byteLength (braceBehind n) = n + 1 := by
    rw [braceBehind, byteLength_append, byteLength_blanks]
    rfl
  have hline : LineAt (braceBehind n) n [] (braceBehind n) [] := by
    refine ⟨(List.append_nil _).symm, opensLine_nil, ?_, nofun,
      Nat.zero_le n, ?_⟩
    · simp [braceBehind]
    · rw [hlength]
      exact Nat.le_add_left_of_le (Nat.le_succ n)
  have hoffset : (⟨n, n + 1⟩ : Span).offsetIn
      (String.ofList (braceBehind n)) = n := by
    rw [Span.offsetIn, String.toList_ofList, hlength]
    exact Nat.min_eq_left (Nat.le_succ n)
  have hsize : byteLength (String.ofList (braceBehind n)).toList <
      maxOffset := by
    rwa [String.toList_ofList, hlength]
  have hquoted : ¬ BehindLines (braceBehind n) n := by
    rw [BehindLines, hlength]
    exact fun h => absurd h.1 (Nat.succ_ne_self n).symm
  rw [caretWidth?_eq _ hsize (by rwa [hoffset, String.toList_ofList]),
    hoffset, String.toList_ofList, if_neg hquoted]
  rfl

theorem overwide_braceBehind {n : Nat} (hn : n + 1 < maxOffset)
    (hwide : maxWidth < n) :
    Overwide (fun _ => .ok (braceBytes n)) ["m"] "" := by
  have hoptions : Options.ofArguments ["m"] = .ok ⟨"m", false⟩ := by decide
  have hflag : ∀ argument ∈ ["m"], ¬ TokenFlag argument := by
    simp [TokenFlag]
  have hlex := lex_braceBehind (Nat.lt_of_succ_lt hn)
  have hcaret := caretWidth?_braceBehind hn
  rw [← decode_braceBytes] at hlex hcaret
  exact .caret (not_misused_of_ok hoptions) rfl rfl
    (.grammatical hlex hflag (parse_brace n)) hcaret hwide

/-- A brace behind 70000 blanks closes nothing, and no caret can be put below
it. -/
theorem not_justified_farBrace :
    run (fun _ => .ok (braceBytes 70000)) id ["m"] = ⟨101, "", outOfRange⟩ ∧
      ¬ (run (fun _ => .ok (braceBytes 70000)) id ["m"]).Justified
        (fun _ => .ok (braceBytes 70000)) id ["m"] := by
  have hwide : Overwide (fun _ => .ok (braceBytes 70000)) ["m"] "" :=
    overwide_braceBehind (by decide) (by decide)
  exact ⟨hwide.run_eq (.refl _), hwide.not_justified⟩

end Command

end Idl
