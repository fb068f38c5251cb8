import Idl.Proofs.Grammar.Source
import Idl.Proofs.Reading.Basic
import Mathlib.Data.List.DropRight
import Mathlib.Data.List.TakeWhile

/-!
# Readings and phrases

A reading reads a phrase when it succeeds on exactly the token lists that the
phrase stands at the front of.  The reading takes every line end behind a
token and the phrase may leave some, so what the two leave is compared with
the line ends in front dropped.  The property passes through sequencing, and
every reading of the grammar gets it from its parts.
-/

namespace Idl.Grammar

/-- The token list does not start with a line end. -/
def Settled (ts : List Token) : Prop := skipLines ts = ts

/-! ## Line ends -/

theorem settled_cons {t : Token} {ts : List Token} :
    Settled (t :: ts) ↔ t.kind ≠ .endLine := by
  unfold Settled skipLines
  by_cases hkind : t.kind = .endLine
  · have hlength :=
      List.length_dropWhile_le (fun t : Token => t.kind == .endLine) ts
    simp only [hkind, beq_self_eq_true, List.dropWhile_cons_of_pos, ne_eq,
      not_true_eq_false, iff_false]
    intro h
    rw [h, List.length_cons] at hlength
    omega
  · simp [hkind]

theorem settled_nil : Settled [] := rfl

theorem settled_skipLines (ts : List Token) : Settled (skipLines ts) := by
  unfold Settled skipLines
  exact List.dropWhile_idempotent _ _

theorem skipLines_lineEnds_append {ls : List Token} (hls : LineEnds ls)
    (ts : List Token) : skipLines (ls ++ ts) = skipLines ts := by
  induction ls with
  | nil => rfl
  | cons l ls ih =>
      have hl : l.kind = .endLine := hls l (by simp)
      have hmore : LineEnds ls := fun t ht => hls t (by simp [ht])
      simpa [skipLines, List.dropWhile_cons, hl] using ih hmore

theorem skipLines_cons_endLine {t : Token} (hkind : t.kind = .endLine)
    (ts : List Token) : skipLines (t :: ts) = skipLines ts := by
  simp [skipLines, hkind]

/-- Dropping a run that may hold line ends drops those in front as well. -/
theorem dropWhile_skipLines {p : Token → Bool}
    (hp : ∀ t, t.kind = .endLine → p t = true) (ts : List Token) :
    (skipLines ts).dropWhile p = ts.dropWhile p := by
  induction ts with
  | nil => rfl
  | cons t ts ih =>
      by_cases hkind : t.kind = .endLine
      · rw [skipLines_cons_endLine hkind, ih,
          List.dropWhile_cons_of_pos (hp t hkind)]
      · have hsettled : skipLines (t :: ts) = t :: ts := settled_cons.mpr hkind
        rw [hsettled]

theorem settled_dropWhile {p : Token → Bool}
    (hp : ∀ t, t.kind = .endLine → p t = true) (ts : List Token) :
    Settled (ts.dropWhile p) := by
  cases hdrop : ts.dropWhile p with
  | nil => exact settled_nil
  | cons t us =>
      have hhead := List.head?_dropWhile_not p ts
      rw [hdrop] at hhead
      refine settled_cons.mpr fun hkind => ?_
      simp [hp t hkind] at hhead

theorem exists_lineEnds (ts : List Token) :
    ∃ ls, LineEnds ls ∧ ts = ls ++ skipLines ts := by
  refine ⟨ts.takeWhile fun t => t.kind == .endLine, ?_, ?_⟩
  · intro t ht
    simpa using List.mem_takeWhile_imp ht
  · exact (List.takeWhile_append_dropWhile).symm

theorem next?_eq (ts : List Token) : next? ts = (skipLines ts).head? := by
  unfold next? skipLines
  exact List.find?_not_eq_head?_dropWhile (fun t : Token => t.kind == .endLine) ts

/-! ## Terminals -/

theorem Terminal.of_cons {kind : TokenKind} {t : Token} (ts : List Token)
    (hkind : t.kind = kind) :
    Terminal kind t.text (t :: ts) (skipLines ts) := by
  obtain ⟨ls, hls, hts⟩ := exists_lineEnds ts
  rw [hts, skipLines_lineEnds_append hls, settled_skipLines]
  exact .intro hkind rfl hls

theorem Terminal.front {kind : TokenKind} {text : String}
    {a b : List Token} (h : Terminal kind text a b) :
    ∃ t ts, a = t :: ts ∧ t.kind = kind ∧ t.text = text ∧
      skipLines ts = skipLines b := by
  rcases h with ⟨hkind, htext, hls⟩
  exact ⟨_, _, rfl, hkind, htext, skipLines_lineEnds_append hls _⟩

theorem Mark.of_cons {kind : TokenKind} {t : Token} (ts : List Token)
    (hkind : t.kind = kind) : Mark kind (t :: ts) (skipLines ts) :=
  ⟨t.text, .of_cons ts hkind⟩

theorem Terminal.ahead {kind : TokenKind} {text : String} {a b : List Token}
    (h : Terminal kind text a b) (hline : kind ≠ .endLine) : Ahead kind a := by
  rcases h.front with ⟨t, ts, rfl, hkind, -, -⟩
  have hsettled : skipLines (t :: ts) = t :: ts :=
    settled_cons.mpr (hkind ▸ hline)
  exact ⟨t, by simp [next?_eq, hsettled], hkind⟩

theorem Ahead.unique {kind other : TokenKind} {ts : List Token}
    (h : Ahead kind ts) (hother : Ahead other ts) : kind = other := by
  rcases h with ⟨t, ht, rfl⟩
  rcases hother with ⟨u, hu, rfl⟩
  rw [ht] at hu
  cases hu
  rfl

theorem Mark.not_ahead {kind other : TokenKind} (hne : kind ≠ other)
    {a b : List Token} (h : Mark kind a b) (hline : kind ≠ .endLine) :
    ¬ Ahead other a := by
  rcases h with ⟨text, h⟩
  exact fun hother => hne ((h.ahead hline).unique hother)

theorem eat?_eq_some_of_mark {kind : TokenKind} (hline : kind ≠ .endLine)
    {a b : List Token} (h : Mark kind a b) :
    eat? kind (skipLines a) = some (skipLines b) := by
  rcases h with ⟨text, h⟩
  rcases h.front with ⟨t, ts, rfl, hkind, -, hrest⟩
  have hsettled : Settled (t :: ts) := settled_cons.mpr (hkind ▸ hline)
  rw [hsettled, eat?, if_pos hkind, hrest]

theorem mark_of_eat?_eq_some {kind : TokenKind} {ts rest : List Token}
    (h : eat? kind ts = some rest) : Mark kind ts rest ∧ Settled rest := by
  cases ts with
  | nil => simp [eat?] at h
  | cons t ts =>
      rw [eat?] at h
      split at h
      next hkind =>
        cases h
        exact ⟨.of_cons ts hkind, settled_skipLines ts⟩
      next => cases h

theorem eat?_eq_none_iff {kind : TokenKind} {ts : List Token} :
    eat? kind (skipLines ts) = none ↔ ¬ Ahead kind ts := by
  unfold Ahead
  rw [next?_eq]
  cases skipLines ts with
  | nil => simp [eat?]
  | cons t us => simp [eat?]

theorem eatWord?_eq_some_of_word {word : String} {a b : List Token}
    (h : Word word a b) :
    eatWord? word (skipLines a) = some (skipLines b) := by
  rcases h.front with ⟨t, ts, rfl, hkind, htext, hrest⟩
  have hsettled : Settled (t :: ts) := settled_cons.mpr (by simp [hkind])
  have hword : t.isWord word = true := by simp [Token.isWord, hkind, htext]
  rw [hsettled, eatWord?, if_pos hword, hrest]

theorem word_of_eatWord?_eq_some {word : String} {ts rest : List Token}
    (h : eatWord? word ts = some rest) : Word word ts rest ∧ Settled rest := by
  cases ts with
  | nil => simp [eatWord?] at h
  | cons t ts =>
      rw [eatWord?] at h
      split at h
      next hword =>
        cases h
        simp only [Token.isWord, Bool.and_eq_true, beq_iff_eq] at hword
        rcases hword with ⟨hkind, rfl⟩
        exact ⟨.of_cons ts hkind, settled_skipLines ts⟩
      next => cases h

theorem eatWord?_eq_none_iff {word : String} {ts : List Token} :
    eatWord? word (skipLines ts) = none ↔ ¬ AheadWord word ts := by
  unfold AheadWord
  rw [next?_eq]
  cases skipLines ts with
  | nil => simp [eatWord?]
  | cons t us => simp [eatWord?]

/-! ## The property and how it passes on -/

/-- The reading succeeds on exactly the lists that the phrase stands in front
of, with the same result. -/
structure Reads {α : Type} (r : Reading α) (p : α → Phrase) : Prop where
  sound : ∀ {ts x rest}, Settled ts → r ts = .ok (x, rest) →
    p x ts rest ∧ Settled rest
  complete : ∀ {ts x rest}, p x ts rest →
    r (skipLines ts) = .ok (x, skipLines rest)

section
variable {α β : Type}

theorem Reads.congr {r : Reading α} {p q : α → Phrase} (h : Reads r p)
    (hpq : ∀ x a b, p x a b ↔ q x a b) : Reads r q where
  sound hts hr := ⟨(hpq _ _ _).mp (h.sound hts hr).1, (h.sound hts hr).2⟩
  complete hq := h.complete ((hpq _ _ _).mpr hq)

theorem reads_pure (x : α) : Reads (pure x) fun y a b => y = x ∧ a = b where
  sound hts hr := by
    cases hr
    exact ⟨⟨rfl, rfl⟩, hts⟩
  complete := by
    intro ts y rest hparts
    rcases hparts with ⟨rfl, rfl⟩
    rfl

theorem Reads.bind {r : Reading α} {f : α → Reading β} {p : α → Phrase}
    {q : α → β → Phrase} (hr : Reads r p) (hf : ∀ x, Reads (f x) (q x)) :
    Reads (r >>= f) fun y a c => ∃ x b, p x a b ∧ q x y b c where
  sound := by
    intro ts y rest hts h
    obtain ⟨x, mid, hx, hy⟩ := reading_bind_eq_ok.mp h
    obtain ⟨hp, hmid⟩ := hr.sound hts hx
    rcases (hf x).sound hmid hy with ⟨hq, hrest⟩
    exact ⟨⟨x, mid, hp, hq⟩, hrest⟩
  complete := by
    intro ts y rest hparts
    rcases hparts with ⟨x, mid, hp, hq⟩
    rw [reading_bind_eq_of_ok (hr.complete hp)]
    exact (hf x).complete hq

end

/-! ## Single tokens -/

theorem reads_text {kind : TokenKind} (hline : kind ≠ .endLine)
    (production : Production) :
    Reads (do
      let text ← textOnLine kind production
      nextLine
      return text) (Terminal kind) where
  sound := by
    intro ts s rest hts h
    obtain ⟨s', mid, htext, h⟩ := reading_bind_eq_ok.mp h
    cases ts with
    | nil => cases htext
    | cons t ts =>
        rw [textOnLine] at htext
        split at htext
        next hkind =>
          obtain ⟨rfl, rfl⟩ : t.text = s' ∧ ts = mid := by simpa using htext
          cases h
          exact ⟨.of_cons ts hkind, settled_skipLines ts⟩
        next => cases htext
  complete := by
    intro ts s rest h
    rcases h.front with ⟨t, us, rfl, hkind, rfl, hrest⟩
    have hsettled : Settled (t :: us) := settled_cons.mpr (hkind ▸ hline)
    have htext : textOnLine kind production (t :: us) = .ok (t.text, us) := by
      rw [textOnLine, if_pos hkind]
    rw [hsettled, reading_bind_eq_of_ok htext, ← hrest]
    rfl

theorem reads_word (production : Production) : Reads (word production) Word :=
  reads_text (by decide) production

theorem reads_expect {kind : TokenKind} (hline : kind ≠ .endLine)
    (production : Production) :
    Reads (expect kind production) fun _ => Mark kind where
  sound := by
    intro ts x rest hts h
    unfold expect at h
    split at h
    next => cases h
    next heat =>
      cases h
      exact mark_of_eat?_eq_some heat
  complete := by
    intro ts x rest h
    simp only [expect, eat?_eq_some_of_mark hline h]

theorem reads_expectWord (word : String) (fault : String → Fault) :
    Reads (expectWord word fault) fun _ => Word word where
  sound := by
    intro ts x rest hts h
    unfold expectWord at h
    split at h
    next => cases h
    next heat =>
      cases h
      exact word_of_eatWord?_eq_some heat
  complete := by
    intro ts x rest h
    simp only [expectWord, eatWord?_eq_some_of_word h]

theorem reads_eat {kind : TokenKind} (hline : kind ≠ .endLine) :
    Reads (eat kind) (Optional kind) where
  sound := by
    intro ts found rest hts h
    unfold eat at h
    split at h
    next heat =>
      cases h
      rw [← hts] at heat
      exact ⟨.absent (eat?_eq_none_iff.mp heat), hts⟩
    next heat =>
      cases h
      exact ⟨.taken (mark_of_eat?_eq_some heat).1, (mark_of_eat?_eq_some heat).2⟩
  complete := by
    intro ts found rest h
    cases h with
    | taken hmark => simp only [eat, eat?_eq_some_of_mark hline hmark]
    | absent hnext => simp only [eat, eat?_eq_none_iff.mpr hnext]

theorem reads_eat_bind {α : Type} {kind : TokenKind} (hline : kind ≠ .endLine)
    {r s : Reading α} {p q : α → Phrase} (hr : Reads r p) (hs : Reads s q) :
    Reads (do if ← eat kind then r else s) fun y a c =>
      (∃ b, Mark kind a b ∧ p y b c) ∨ (¬ Ahead kind a ∧ q y a c) := by
  have hbranch : ∀ found : Bool, Reads (if found = true then r else s)
      (fun y a c => (found = true ∧ p y a c) ∨ (found = false ∧ q y a c)) := by
    intro found
    cases found with
    | false => exact hs.congr (by simp)
    | true => exact hr.congr (by simp)
  have hread := (reads_eat hline).bind hbranch
  apply hread.congr
  intro y a c
  constructor
  · intro hparts
    rcases hparts with ⟨found, b, hfound, ⟨rfl, hp⟩ | ⟨rfl, hq⟩⟩
    · cases hfound with
      | taken hmark => exact .inl ⟨b, hmark, hp⟩
    · cases hfound with
      | absent hnext => exact .inr ⟨hnext, hq⟩
  · rintro (⟨b, hmark, hp⟩ | ⟨hnext, hq⟩)
    · exact ⟨true, b, .taken hmark, .inl ⟨rfl, hp⟩⟩
    · exact ⟨false, a, .absent hnext, .inr ⟨rfl, hq⟩⟩

theorem reads_eatWord (word : String) :
    Reads (eatWord word) fun found a b =>
      (found = true ∧ Word word a b) ∨
        (found = false ∧ ¬ AheadWord word a ∧ a = b) where
  sound := by
    intro ts found rest hts h
    unfold eatWord at h
    split at h
    next heat =>
      cases h
      rw [← hts] at heat
      exact ⟨.inr ⟨rfl, eatWord?_eq_none_iff.mp heat, rfl⟩, hts⟩
    next heat =>
      cases h
      exact ⟨.inl ⟨rfl, (word_of_eatWord?_eq_some heat).1⟩,
        (word_of_eatWord?_eq_some heat).2⟩
  complete := by
    rintro ts found rest (⟨rfl, hword⟩ | ⟨rfl, hnext, rfl⟩)
    · simp only [eatWord, eatWord?_eq_some_of_word hword]
    · simp only [eatWord, eatWord?_eq_none_iff.mpr hnext]

theorem reads_ahead (kind : TokenKind) :
    Reads (ahead kind) fun found a b => (found = true ↔ Ahead kind a) ∧ a = b where
  sound := by
    intro ts found rest hts h
    cases h
    refine ⟨⟨?_, rfl⟩, hts⟩
    rw [Settled] at hts
    simp [Ahead, next?_eq, hts]
  complete := by
    intro ts found rest hparts
    rcases hparts with ⟨hfound, rfl⟩
    have : ((skipLines ts).head?.map Token.kind == some kind) = found := by
      rw [Bool.eq_iff_iff, hfound]
      simp [Ahead, next?_eq]
    simp only [ahead, this]

theorem reads_ahead_bind {α : Type} {kind : TokenKind} {r s : Reading α}
    {p q : α → Phrase} (hr : Reads r p) (hs : Reads s q) :
    Reads (do if ← ahead kind then r else s) fun y a c =>
      (Ahead kind a ∧ p y a c) ∨ (¬ Ahead kind a ∧ q y a c) := by
  have hbranch : ∀ found : Bool, Reads (if found = true then r else s)
      (fun y a c => (found = true ∧ p y a c) ∨ (found = false ∧ q y a c)) := by
    intro found
    cases found with
    | false => exact hs.congr (by simp)
    | true => exact hr.congr (by simp)
  have hread := (reads_ahead kind).bind hbranch
  apply hread.congr
  intro y a c
  constructor
  · intro hparts
    rcases hparts with ⟨found, b, ⟨hfound, rfl⟩, ⟨rfl, hp⟩ | ⟨rfl, hq⟩⟩
    · exact .inl ⟨hfound.mp rfl, hp⟩
    · exact .inr ⟨fun hahead => absurd (hfound.mpr hahead) (by simp), hq⟩
  · rintro (⟨hahead, hp⟩ | ⟨hnext, hq⟩)
    · exact ⟨true, a, ⟨by simp [hahead], rfl⟩, .inl ⟨rfl, hp⟩⟩
    · exact ⟨false, a, ⟨by simp [hnext], rfl⟩, .inr ⟨rfl, hq⟩⟩

end Idl.Grammar
