import Idl.Proofs.Grammar.Declarations

/-!
# Entries of bodies and directives are read as the grammar has them
-/

namespace Idl.Grammar

/-! ## Enumerators -/

theorem comma_or_endLine_of_endLine (t : Token) (h : t.kind = .endLine) :
    (t.kind == .comma || t.kind == .endLine) = true := by
  simp [h]

theorem commas_dropWhile (ts : List Token) :
    Commas (skipLines ts)
      (ts.dropWhile fun t => t.kind == .comma || t.kind == .endLine) := by
  induction ts with
  | nil =>
      refine .nil ?_
      intro hparts
      rcases hparts with ⟨t, ht, -⟩
      cases ht
  | cons t ts ih =>
      by_cases hline : t.kind = .endLine
      · rw [skipLines_cons_endLine hline,
          List.dropWhile_cons_of_pos (by simp [hline])]
        exact ih
      · have hsettled : skipLines (t :: ts) = t :: ts := settled_cons.mpr hline
        by_cases hcomma : t.kind = .comma
        · rw [hsettled, List.dropWhile_cons_of_pos (by simp [hcomma])]
          exact .cons (.of_cons ts hcomma) ih
        · rw [hsettled, List.dropWhile_cons_of_neg (by simp [hcomma, hline])]
          refine .nil ?_
          simp [Ahead, next?_eq, hsettled, hcomma]

theorem dropWhile_of_commas {a b : List Token} (h : Commas a b) :
    (a.dropWhile fun t => t.kind == .comma || t.kind == .endLine) =
      skipLines b := by
  induction h with
  | @nil a hnext =>
      rw [← dropWhile_skipLines comma_or_endLine_of_endLine]
      cases ha : skipLines a with
      | nil => rfl
      | cons t us =>
          have hline : t.kind ≠ .endLine := by
            have hsettled := settled_skipLines a
            rw [ha] at hsettled
            exact settled_cons.mp hsettled
          have hcomma : t.kind ≠ .comma := by
            simpa [Ahead, next?_eq, ha] using hnext
          exact List.dropWhile_cons_of_neg (by simp [hcomma, hline])
  | cons hcomma _ ih =>
      rcases hcomma with ⟨text, hcomma⟩
      rcases hcomma.front with ⟨t, ts, rfl, hkind, -, hrest⟩
      rw [List.dropWhile_cons_of_pos (by simp [hkind]), ← ih,
        ← dropWhile_skipLines comma_or_endLine_of_endLine ts, hrest,
        dropWhile_skipLines comma_or_endLine_of_endLine]

theorem reads_skipCommas : Reads skipCommas fun _ => Commas where
  sound := by
    intro ts x rest hts h
    cases h
    refine ⟨?_, settled_dropWhile comma_or_endLine_of_endLine ts⟩
    have hcommas := commas_dropWhile ts
    rwa [hts] at hcommas
  complete := by
    intro ts x rest h
    rw [skipCommas, dropWhile_skipLines comma_or_endLine_of_endLine,
      dropWhile_of_commas h]

theorem reads_readEnumerator : Reads readEnumerator Enumerator := by
  have hread := (reads_word .enumerator).bind fun name =>
    reads_skipCommas.bind fun _ => reads_pure name
  apply hread.congr
  intro name a c
  constructor
  · intro hparts
    rcases hparts with ⟨_, b, hname, -, _, hcommas, rfl, rfl⟩
    exact .intro hname hcommas
  · intro hparts
    rcases hparts with ⟨hname, hcommas⟩
    exact ⟨_, _, hname, (), _, hcommas, rfl, rfl⟩

/-! ## Methods -/

theorem ofWord?_word (d : Direction) :
    Direction.ofWord? d.word = some d := by
  cases d <;> rfl

theorem word_of_ofWord? {w : String} {d : Direction}
    (h : Direction.ofWord? w = some d) : d.word = w := by
  simpa using List.find?_some h

theorem reads_readDirection : Reads readDirection fun d => Word d.word where
  sound := by
    intro ts d rest hts h
    cases ts with
    | nil => cases h
    | cons t ts =>
        rw [readDirection] at h
        split at h
        next hkind =>
          split at h
          next => cases h
          next hword =>
            cases h
            rw [word_of_ofWord? hword]
            exact ⟨.of_cons ts hkind, settled_skipLines ts⟩
        next => cases h
  complete := by
    intro ts d rest h
    rcases h.front with ⟨t, us, rfl, hkind, htext, hrest⟩
    have hsettled : skipLines (t :: us) = t :: us :=
      settled_cons.mpr (by simp [hkind])
    rw [hsettled, readDirection, if_pos hkind, htext]
    simp only [ofWord?_word, hrest]

theorem Declared.ahead {d : Declarator} {a b : List Token}
    (h : Declared d a b) : Ahead .identifier a := by
  rcases h with ⟨hfirst, -, -⟩
  exact hfirst.ahead (by decide)

theorem Passed.ahead {p : Parameter} {a b : List Token}
    (h : Passed p a b) : Ahead .identifier a := by
  cases h with
  | named hdirection => exact hdirection.ahead (by decide)
  | unnamed hdirection => exact hdirection.ahead (by decide)

theorem reads_readParameter : Reads readParameter Passed := by
  refine (reads_readDirection.bind fun direction =>
    (reads_readType .parameter).bind fun t => reads_ahead_bind
      ((reads_declarator .parameter).bind fun d =>
        reads_pure (⟨direction, d.bind t, some d.name⟩ : Parameter))
      (reads_pure (⟨direction, t, none⟩ : Parameter))).congr fun p a e => ?_
  constructor
  · intro hparts
    rcases hparts with
      ⟨direction, b, hdirection, t, c, ht, ⟨-, d, _, hd, rfl, rfl⟩ | ⟨hnext, rfl, rfl⟩⟩
    · exact .named hdirection ht hd
    · exact .unnamed hdirection ht hnext
  · rintro (⟨hdirection, ht, hd⟩ | ⟨hdirection, ht, hnext⟩)
    · exact ⟨_, _, hdirection, _, _, ht, .inl ⟨hd.ahead, _, _, hd, rfl, rfl⟩⟩
    · exact ⟨_, _, hdirection, _, _, ht, .inr ⟨hnext, rfl, rfl⟩⟩

theorem reads_readParameters : Reads readParameters Signature := by
  refine (reads_eat_bind (by decide)
    ((reads_expect (by decide) .method).bind fun _ => reads_pure [])
    ((reads_separated (by decide) consumes_readParameter
        reads_readParameter).bind fun ps =>
      (reads_expect (by decide) .parameter).bind fun _ =>
        (reads_eat (by decide)).bind fun _ => reads_pure ps)).congr
          fun ps a e => ?_
  constructor
  · rintro (⟨b, hclose, -, c, hend, rfl, rfl⟩ |
      ⟨-, ps, b, hps, -, c, hclose, ended, d, hend, rfl, rfl⟩)
    · exact .empty hclose hend
    · exact .parameters hps hclose hend
  · rintro (⟨hclose, hend⟩ | ⟨hps, hclose, hend⟩)
    · exact .inl ⟨_, hclose, (), _, hend, rfl, rfl⟩
    · have hnext : ¬ Ahead .closeRound a := by
        rcases hps with ⟨hp, -⟩
        exact fun hround => absurd (hp.ahead.unique hround) (by decide)
      exact .inr ⟨hnext, _, _, hps, (), _, hclose, _, _, hend, rfl, rfl⟩

theorem reads_readMethod : Reads readMethod Called := by
  refine ((reads_readType .method).bind fun t =>
    (reads_declaredText .method).bind fun name =>
      (reads_expect (by decide) .method).bind fun _ =>
        reads_readParameters.bind fun ps =>
          reads_pure (⟨name, t, ps⟩ : Method)).congr fun m a f => ?_
  constructor
  · intro hparts
    rcases hparts with
      ⟨t, b, ht, name, c, hname, -, d, hopen, ps, e, hps, rfl, rfl⟩
    exact .intro ht hname hopen hps
  · intro hparts
    rcases hparts with ⟨ht, hname, hopen, hps⟩
    exact ⟨_, _, ht, _, _, hname, (), _, hopen, _, _, hps, rfl, rfl⟩

/-! ## Cases of a union -/

theorem reads_readCase : Reads readCase Selected := by
  refine ((reads_expectWord "case" .expectedCase).bind fun _ =>
    (reads_expect (by decide) .unionCase).bind fun _ =>
      (reads_readType .unionCase).bind fun t =>
        (reads_expect (by decide) .unionCase).bind fun _ =>
          (reads_expect (by decide) .unionCase).bind fun _ =>
            (reads_readMember .unionCase).bind fun m =>
              reads_pure (⟨t, m.type, m.name⟩ : UnionCase)).congr
                fun c a h => ?_
  constructor
  · intro hparts
    rcases hparts with
      ⟨-, b, hword, -, c, hopen, t, d, ht, -, e, hclose, -, f, hcolon, m, g, hm, rfl, rfl⟩
    exact .intro hword hopen ht hclose hcolon hm
  · intro hparts
    rcases hparts with ⟨hword, hopen, ht, hclose, hcolon, hm⟩
    exact ⟨(), _, hword, (), _, hopen, _, _, ht, (), _, hclose, (), _, hcolon,
      _, _, hm, rfl, rfl⟩

end Idl.Grammar
