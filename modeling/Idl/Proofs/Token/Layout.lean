import Idl.Proofs.Token.Tiling

/-!
# Laying out tokens

Tokens are written one behind the other with trivia in front of each and behind
the last.  Trivia are blanks, and a comment where the line or the text ends
behind it.  Two tokens may touch unless the first would go on into the second,
and a word may not stand at the very end.  What is laid out in this way tiles
its text, so lexing gives the tokens back, each with the span at which it was
written.
-/

namespace Idl

open Grammar

/-- The texts that may stand in front of the next token, or at the end. -/
inductive IsTrivia (next : Option Token) : List Char → Prop where
  | blanks {run : List Char} (hrun : ∀ c ∈ run, isBlank c = true) :
      IsTrivia next run
  | comment {run body : List Char} (hrun : ∀ c ∈ run, isBlank c = true)
      (hbody : '\n' ∉ body) (hnext : ∀ t ∈ next, t.kind = .endLine) :
      IsTrivia next (run ++ '/' :: '/' :: body)

/-- The token goes on into the next one, or ends where it must not. -/
def Token.Merges (t : Token) : Option Token → Prop
  | none => t.kind = .identifier
  | some u => (t.kind = .identifier ∧ u.kind = .identifier) ∨
      (t.kind = .colon ∧ (u.kind = .colon ∨ u.kind = .namespaces))

/-- Tokens with the trivia in front of each, trivia at the end, and the token
in front of all of them, if there is one. -/
inductive LaidOut : Option Token → List (List Char × Token) → List Char →
    Prop where
  | last {previous : Option Token} {gap : List Char} (hgap : IsTrivia none gap)
      (hmerges : ∀ t ∈ previous, t.Merges none → gap ≠ []) :
      LaidOut previous [] gap
  | token {previous : Option Token} {gap last : List Char} {t : Token}
      {layout : List (List Char × Token)} (hgap : IsTrivia (some t) gap)
      (hmerges : ∀ u ∈ previous, u.Merges (some t) → gap ≠ [])
      (hspelled : t.Spelled) (hrest : LaidOut (some t) layout last) :
      LaidOut previous ((gap, t) :: layout) last

/-- The text of a layout. -/
def layoutText (last : List Char) : List (List Char × Token) → List Char
  | [] => last
  | (gap, t) :: layout => gap ++ (t.spelling ++ layoutText last layout)

/-- The tokens of a layout that starts at an offset, with their spans. -/
def layoutTokens (offset : Nat) : List (List Char × Token) → List Token
  | [] => []
  | (gap, t) :: layout =>
    let start := offset + Text.byteLength gap
    let stop := start + Text.byteLength t.spelling
    { t with span := ⟨start, stop⟩ } :: layoutTokens stop layout

/-! ## Trivia are gaps -/

section
variable {next : Option Token} {gap rest : List Char} {c : Char}

theorem IsTrivia.gap_of (h : IsTrivia next gap)
    (hrest : (∀ t ∈ next, t.kind = .endLine) → NotAhead (· != '\n') rest) :
    Gap gap rest := by
  cases h with
  | blanks hrun =>
      have hblanks : Gap (gap ++ []) rest := .blanks hrun .nil
      rwa [List.append_nil] at hblanks
  | @comment run body hrun hbody hnext =>
      have hcomment : Gap ('/' :: '/' :: (body ++ [])) rest :=
        .comment hbody (hrest hnext) .nil
      rw [List.append_nil] at hcomment
      exact Gap.blanks hrun hcomment

theorem IsTrivia.head_ne (h : IsTrivia next (c :: gap)) :
    isWordChar c = false ∧ c ≠ ':' := by
  have hc : isBlank c = true ∨ c = '/' := by
    generalize hcs : c :: gap = cs at h
    cases h with
    | blanks hrun => exact .inl (hrun c (hcs ▸ List.mem_cons_self))
    | @comment run body hrun =>
        cases run with
        | nil => exact .inr (List.cons.inj hcs).1
        | cons b run =>
            obtain rfl := (List.cons.inj hcs).1
            exact .inl (hrun c List.mem_cons_self)
  rcases hc with hblank | rfl
  · refine ⟨isWordChar_of_isBlank hblank, ?_⟩
    rintro rfl
    cases hblank
  · exact ⟨rfl, by decide⟩

end

/-! ## Tokens end where they are meant to -/

section
variable {t u : Token} {c : Char} {cs last : List Char} {offset : Nat}
  {previous : Option Token} {layout : List (List Char × Token)}

theorem kind_of_colon_mem_mark {kind : TokenKind} (h : ':' ∈ kind.mark) :
    kind = .colon ∨ kind = .namespaces := by
  revert h
  cases kind <;> decide

theorem Token.Spelled.head_eq (h : u.Spelled) (hc : u.spelling = c :: cs) :
    (u.kind ≠ .identifier → isWordChar c = false) ∧
      (c = ':' → u.kind = .colon ∨ u.kind = .namespaces) := by
  cases h with
  | @word w span hw =>
      refine ⟨fun hkind => absurd rfl hkind, ?_⟩
      rintro rfl
      have hcolon := hw.wordChar ':' (by
        rw [show w.toList = ':' :: cs from hc]
        exact List.mem_cons_self)
      exact absurd hcolon (by decide)
  | literal hbody =>
      obtain rfl := (List.cons.inj hc).1
      exact ⟨fun _ => rfl, nofun⟩
  | @mark kind span hmark =>
      rw [Token.spelling_mark hmark] at hc
      have hmem : c ∈ kind.mark := by
        rw [hc]
        exact List.mem_cons_self
      refine ⟨fun _ => isWordChar_of_mem_mark hmem, ?_⟩
      rintro rfl
      exact kind_of_colon_mem_mark hmem

/-- A token that is laid out ends where the rest of the layout starts. -/
theorem LaidOut.ends (h : LaidOut (some t) layout last) :
    t.Ends (layoutText last layout) := by
  cases h with
  | last hgap hmerges =>
      cases last with
      | nil =>
          exact ⟨fun hkind => absurd rfl (hmerges t rfl hkind), fun _ => nofun⟩
      | cons c gap =>
          obtain ⟨hword, hcolon⟩ := hgap.head_ne
          refine ⟨fun _ => hword, fun _ => ?_⟩
          simpa [layoutText, NotAhead] using hcolon
  | @token _ gap _ u layout hgap hmerges hspelled hrest =>
      cases gap with
      | cons c gap =>
          obtain ⟨hword, hcolon⟩ := hgap.head_ne
          refine ⟨fun _ => hword, fun _ => ?_⟩
          simpa [layoutText, NotAhead] using hcolon
      | nil =>
          have hapart : ¬ t.Merges (some u) := fun hmerge =>
            hmerges t rfl hmerge rfl
          obtain ⟨c, cs, hcs⟩ :=
            List.exists_cons_of_ne_nil hspelled.spelling_ne_nil
          obtain ⟨hword, hcolon⟩ := hspelled.head_eq hcs
          rw [layoutText, List.nil_append, hcs]
          refine ⟨fun hkind => ?_, fun hkind => ?_⟩
          · exact hword fun hu => hapart (.inl ⟨hkind, hu⟩)
          · have hc : c ≠ ':' := fun hc => hapart (.inr ⟨hkind, hcolon hc⟩)
            simpa [NotAhead] using hc

theorem Token.Spelled.moved (h : t.Spelled) (span : Span) :
    Token.Spelled { t with span } := by
  cases h with
  | word hw => exact .word hw
  | literal hbody => exact .literal hbody
  | mark hmark => exact .mark hmark

theorem Token.Spelled.notAhead_endLine (h : t.Spelled)
    (hkind : t.kind = .endLine) : NotAhead (· != '\n') (t.spelling ++ cs) := by
  cases h with
  | word => cases hkind
  | literal => cases hkind
  | mark =>
      cases hkind
      simp [Token.spelling, TokenKind.mark, NotAhead]

/-- A layout of moderate size tiles its text. -/
theorem LaidOut.tiles (h : LaidOut previous layout last)
    (hsize : offset + Text.byteLength (layoutText last layout) ≤ maxOffset) :
    Tiles offset (layoutText last layout) (layoutTokens offset layout) := by
  induction h generalizing offset with
  | last hgap hmerges => exact .last (hgap.gap_of fun _ => nofun)
  | @token _ gap last t layout hgap hmerges hspelled hrest ih =>
      rw [layoutText] at hsize
      rw [layoutText, layoutTokens]
      simp only [Text.byteLength_append, ← Nat.add_assoc] at hsize
      let start := offset + Text.byteLength gap
      let stop := start + Text.byteLength t.spelling
      have hstop : stop ≤ maxOffset :=
        Nat.le_trans (Nat.le_add_right _ _) hsize
      have hspan : Span.ofRange start stop = ⟨start, stop⟩ :=
        Span.ofRange_of_le (Nat.le_add_right _ _) hstop
      exact .token (t := { t with span := ⟨start, stop⟩ })
        (hgap.gap_of fun hline => hspelled.notAhead_endLine (hline t rfl))
        (hspelled.moved _) ⟨hrest.ends.word, hrest.ends.colon⟩ rfl rfl
        hspan.symm (ih hsize)

/-- Lexing gives back the tokens that were laid out. -/
theorem lex_layoutText (h : LaidOut none layout last)
    (hsize : Text.byteLength (layoutText last layout) ≤ maxOffset) :
    lex (String.ofList (layoutText last layout)) =
      .ok (layoutTokens 0 layout) := by
  have htiles : Tiles 0 (layoutText last layout) (layoutTokens 0 layout) :=
    h.tiles (by rwa [Nat.zero_add])
  rw [lex, String.toList_ofList]
  exact htiles.lexed

theorem lex_layoutText_commentBeforeLineEnd :
    let layout : List (List Char × Token) :=
      [([], ⟨.identifier, "a", ⟨0, 0⟩⟩), ([' '], ⟨.identifier, "b", ⟨0, 0⟩⟩),
       ([], ⟨.colon, "", ⟨0, 0⟩⟩), (['/', '/', ':'], ⟨.endLine, "", ⟨0, 0⟩⟩)]
    LaidOut none layout ['\t'] ∧
      Text.byteLength (layoutText ['\t'] layout) ≤ maxOffset ∧
      lex (String.ofList (layoutText ['\t'] layout)) =
        .ok (layoutTokens 0 layout) := by
  intro layout
  have hsize : Text.byteLength (layoutText ['\t'] layout) ≤ maxOffset := by
    decide
  have hlast : LaidOut (some ⟨.endLine, "", ⟨0, 0⟩⟩) [] ['\t'] :=
    .last (.blanks (List.forall_mem_singleton.mpr rfl)) fun t ht hmerges => by
      cases ht
      cases hmerges
  have hlaidOut : LaidOut none layout ['\t'] := by
    refine .token (.blanks nofun) nofun (.word (by decide)) ?_
    refine .token (.blanks (List.forall_mem_singleton.mpr rfl))
      (fun _ _ _ => List.cons_ne_nil _ _) (.word (by decide)) ?_
    refine .token (.blanks nofun) (fun t ht hmerges => ?_)
      (.mark (by decide)) ?_
    · cases ht
      simp [Token.Merges] at hmerges
    · have hcomment : IsTrivia (some ⟨.endLine, "", ⟨0, 0⟩⟩)
          ([] ++ ['/', '/', ':']) := .comment nofun (by decide) (by simp)
      exact .token hcomment (fun _ _ _ => List.cons_ne_nil _ _)
        (.mark (by decide)) hlast
  exact ⟨hlaidOut, hsize, lex_layoutText hlaidOut hsize⟩

end

end Idl
