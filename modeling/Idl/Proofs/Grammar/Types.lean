import Idl.Proofs.Grammar.Reads

/-!
# Names, types and values are read as the grammar has them

The loops and the recursive readings get the property by induction, in one
direction on the length of the stream and in the other on the phrase; all
other readings get it from their parts.
-/

namespace Idl.Grammar

/-! ## Sequences -/

section
variable {α : Type} {separator : TokenKind} {item : Reading α}
  {p : α → Phrase}

theorem sound_followed (hline : separator ≠ .endLine)
    (hitem : Consumes item) (hreads : Reads item p) :
    ∀ {ts xs rest}, Settled ts →
      followed separator item hitem ts = .ok (xs, rest) →
        Followed separator p xs ts rest ∧ Settled rest := by
  intro ts
  induction hlength : ts.length using Nat.strongRecOn generalizing ts with
  | ind n ih =>
      intro xs rest hts h
      rw [followed_eq] at h
      obtain ⟨more, mid, hmore, h⟩ := reading_bind_eq_ok.mp h
      rcases (reads_eat hline).sound hts hmore with ⟨heat, hmid⟩
      cases heat with
      | absent hnext =>
          cases h
          exact ⟨.nil hnext, hmid⟩
      | taken hmark =>
          obtain ⟨x, mid', hx, h⟩ := reading_bind_eq_ok.mp h
          obtain ⟨xs', mid'', hxs, h⟩ := reading_bind_eq_ok.mp h
          have hle := keeps_eat separator ts true mid hmore
          have hlt := hitem mid x mid' hx
          obtain ⟨hp, hmid'⟩ := hreads.sound hmid hx
          obtain ⟨hps, hrest⟩ := ih mid'.length (by omega) rfl hmid' hxs
          cases h
          exact ⟨.cons hmark hp hps, hrest⟩

theorem complete_followed (hline : separator ≠ .endLine)
    (hitem : Consumes item) (hreads : Reads item p)
    {xs : List α} {ts rest : List Token}
    (h : Followed separator p xs ts rest) :
    followed separator item hitem (skipLines ts) =
      .ok (xs, skipLines rest) := by
  induction h with
  | nil hnext =>
      rw [followed_eq,
        reading_bind_eq_of_ok ((reads_eat hline).complete (.absent hnext))]
      rfl
  | cons hmark hx _ ih =>
      rw [followed_eq,
        reading_bind_eq_of_ok ((reads_eat hline).complete (.taken hmark))]
      simp only [if_true]
      rw [reading_bind_eq_of_ok (hreads.complete hx),
        reading_bind_eq_of_ok ih]
      rfl

theorem reads_followed (hline : separator ≠ .endLine)
    (hitem : Consumes item) (hreads : Reads item p) :
    Reads (followed separator item hitem) (Followed separator p) :=
  ⟨sound_followed hline hitem hreads, complete_followed hline hitem hreads⟩

theorem reads_separated (hline : separator ≠ .endLine)
    (hitem : Consumes item) (hreads : Reads item p) :
    Reads (separated separator item hitem) (Separated separator p) := by
  have hread := hreads.bind fun x => (reads_followed hline hitem hreads).bind
    fun xs => reads_pure (x :: xs)
  apply hread.congr
  intro ys a d
  constructor
  · intro hparts
    rcases hparts with ⟨x, b, hx, xs, c, hxs, rfl, rfl⟩
    exact .intro hx hxs
  · intro hparts
    rcases hparts with ⟨hx, hxs⟩
    exact ⟨_, _, hx, _, _, hxs, rfl, rfl⟩

end

/-! ## Names -/

theorem reads_moreSegments (production : Production) :
    Reads (moreSegments production) Segments :=
  reads_followed (by decide) _ (reads_word production)

theorem reads_arraySize (production : Production) :
    Reads (arraySize production) Size := by
  refine (reads_eat_bind (by decide)
    ((reads_word production).bind fun n =>
      (reads_expect (by decide) production).bind fun _ => reads_pure (some n))
    (reads_pure none)).congr fun n a d => ?_
  constructor
  · rintro (⟨b, hopen, w, c, hword, -, e, hclose, rfl, rfl⟩ |
      ⟨hnext, rfl, rfl⟩)
    · exact .given hopen hword hclose
    · exact .absent hnext
  · rintro (hnext | ⟨hopen, hword, hclose⟩)
    · exact .inr ⟨hnext, rfl, rfl⟩
    · exact .inl ⟨_, hopen, _, _, hword, (), _, hclose, rfl, rfl⟩

theorem reads_declarator (production : Production) :
    Reads (declarator production) Declared := by
  have hread := (reads_word production).bind fun first =>
    (reads_moreSegments production).bind fun ss =>
      (reads_arraySize production).bind fun n =>
        reads_pure (⟨qualified first ss, n⟩ : Declarator)
  apply hread.congr
  intro d a e
  constructor
  · intro hparts
    rcases hparts with ⟨first, b, hfirst, ss, c, hss, n, _, hn, rfl, rfl⟩
    exact .intro hfirst hss hn
  · intro hparts
    rcases hparts with ⟨hfirst, hss, hn⟩
    exact ⟨_, _, hfirst, _, _, hss, _, _, hn, rfl, rfl⟩

theorem reads_declaredText (production : Production) :
    Reads (declaredText production) DeclaredText := by
  have hread := (reads_declarator production).bind fun d =>
    reads_pure d.text
  apply hread.congr
  intro text a b
  constructor
  · intro hparts
    rcases hparts with ⟨d, _, hd, rfl, rfl⟩
    exact .intro hd
  · intro hparts
    rcases hparts with ⟨hd⟩
    exact ⟨_, _, hd, rfl, rfl⟩

theorem reads_declaredTexts (production : Production) :
    Reads (declaredTexts production) (Separated .comma DeclaredText) :=
  reads_separated (by decide) _ (reads_declaredText production)

/-! ## Types -/

theorem reads_withSign (production : Production) (first : String) :
    Reads (withSign production first) (Signed first) := by
  unfold withSign
  split
  next hfirst =>
    subst hfirst
    have hread := (reads_word production).bind fun w =>
      reads_pure ("unsigned " ++ w)
    apply hread.congr
    intro s a c
    constructor
    · intro hparts
      rcases hparts with ⟨w, b, hw, rfl, rfl⟩
      exact .unsigned hw
    · rintro (hne | hw)
      · exact absurd rfl hne
      · exact ⟨_, _, hw, rfl, rfl⟩
  next hfirst =>
    have hread := reads_pure first
    apply hread.congr
    intro s a b
    constructor
    · intro hparts
      rcases hparts with ⟨rfl, rfl⟩
      exact .plain hfirst
    · rintro (_ | hw)
      · exact ⟨rfl, rfl⟩
      · exact absurd rfl hfirst

theorem reads_withLength (name : String) :
    Reads (withLength name) (Lengthened name) := by
  unfold withLength
  split
  next hname =>
    have hbranch : ∀ found : Bool,
        Reads (if found = true then pure (name ++ " long") else pure name)
          (fun s a b =>
            s = (if found = true then name ++ " long" else name) ∧ a = b) := by
      intro found
      cases found with
      | false => exact reads_pure name
      | true => exact reads_pure (name ++ " long")
    have hread := (reads_eatWord "long").bind hbranch
    apply hread.congr
    intro s a c
    constructor
    · intro hparts
      rcases hparts with ⟨found, b, ⟨rfl, hword⟩ | ⟨rfl, hnext, rfl⟩, rfl, rfl⟩
      · exact .long hname hword
      · exact .short fun _ => hnext
    · rintro (hnext | ⟨-, hword⟩)
      · exact ⟨false, a, .inr ⟨rfl, hnext hname, rfl⟩, rfl, rfl⟩
      · exact ⟨true, c, .inl ⟨rfl, hword⟩, rfl, rfl⟩
  next hname =>
    have hread := reads_pure name
    apply hread.congr
    intro s a b
    constructor
    · intro hparts
      rcases hparts with ⟨rfl, rfl⟩
      exact .short fun h => absurd h hname
    · rintro (_ | ⟨h, -⟩)
      · exact ⟨rfl, rfl⟩
      · exact absurd h hname

theorem reads_typeName (production : Production) (first : String) :
    Reads (typeName production first) (TypeName first) := by
  have hread := (reads_withSign production first).bind fun signed =>
    (reads_withLength signed).bind fun base =>
      (reads_moreSegments production).bind fun ss =>
        reads_pure (qualified base ss)
  apply hread.congr
  intro name a e
  constructor
  · intro hparts
    rcases hparts with
      ⟨signed, b, hsigned, base, c, hbase, ss, _, hss, rfl, rfl⟩
    exact .intro hsigned hbase hss
  · intro hparts
    rcases hparts with ⟨hsigned, hbase, hss⟩
    exact ⟨_, _, hsigned, _, _, hbase, _, _, hss, rfl, rfl⟩

/-- The two directions of reading types and arguments together, for streams
of one length; shorter streams are the induction hypothesis. -/
theorem sound_types (n : Nat) :
    ∀ ts : List Token, ts.length = n → Settled ts →
      (∀ production t rest, readType production ts = .ok (t, rest) →
        Typed t ts rest ∧ Settled rest) ∧
      (∀ l rest, readArguments ts = .ok (l, rest) →
        Arguments l ts rest ∧ Settled rest) := by
  induction n using Nat.strongRecOn with
  | ind n ih =>
      intro ts hlength hts
      have htype : ∀ production t rest, readType production ts = .ok (t, rest) →
          Typed t ts rest ∧ Settled rest := by
        intro production t rest h
        rw [readType_eq] at h
        obtain ⟨first, b, hfirst, h⟩ := reading_bind_eq_ok.mp h
        obtain ⟨l, d, hl, h⟩ := reading_bind_eq_ok.mp h
        obtain ⟨name, e, hname, h⟩ := reading_bind_eq_ok.mp h
        cases h
        have hb := consumes_word production ts first b hfirst
        rcases (reads_word production).sound hts hfirst with ⟨hword, hbs⟩
        obtain ⟨more, c, hmore, hl⟩ := reading_bind_eq_ok.mp hl
        have hc := keeps_eat .less b more c hmore
        rcases (reads_eat (by decide)).sound hbs hmore with ⟨heat, hcs⟩
        cases heat with
        | absent hnext =>
            cases hl
            rcases (reads_typeName production first).sound hcs hname with
              ⟨hn, hrest⟩
            exact ⟨.plain hword hnext hn, hrest⟩
        | taken hmark =>
            rcases (ih c.length (by omega) c rfl hcs).2 l d hl with ⟨hargs, hd⟩
            rcases (reads_typeName production first).sound hd hname with
              ⟨hn, hrest⟩
            exact ⟨.template hword hmark hargs hn, hrest⟩
      refine ⟨htype, fun l rest h => ?_⟩
      rw [readArguments_eq] at h
      obtain ⟨t, b, ht, h⟩ := reading_bind_eq_ok.mp h
      have hb := consumes_readType _ ts t b ht
      obtain ⟨htyped, hbs⟩ := htype _ t b ht
      obtain ⟨more, c, hmore, h⟩ := reading_bind_eq_ok.mp h
      have hc := keeps_eat .comma b more c hmore
      rcases (reads_eat (by decide)).sound hbs hmore with ⟨heat, hcs⟩
      cases heat with
      | absent hnext =>
          obtain ⟨_, d, hclose, h⟩ := reading_bind_eq_ok.mp h
          cases h
          obtain ⟨hgreater, hrest⟩ :=
            (reads_expect (by decide) .templateArguments).sound hcs hclose
          exact ⟨.last htyped hgreater, hrest⟩
      | taken hmark =>
          obtain ⟨l', d, hl', h⟩ := reading_bind_eq_ok.mp h
          cases h
          rcases (ih c.length (by omega) c rfl hcs).2 l' _ hl' with
            ⟨hargs, hrest⟩
          exact ⟨.more htyped hmark hargs, hrest⟩

mutual
theorem Typed.complete {t : TypeRef} {ts rest : List Token}
    (h : Typed t ts rest) (production : Production) :
    readType production (skipLines ts) = .ok (t, skipLines rest) := by
  cases h with
  | plain hfirst hnext hname =>
      rw [readType_eq,
        reading_bind_eq_of_ok ((reads_word production).complete hfirst)]
      have hless := (reads_eat (by decide)).complete (.absent hnext)
      simp only [bind_assoc]
      rw [reading_bind_eq_of_ok hless]
      simp only [Bool.false_eq_true, if_false, pure_bind]
      rw [reading_bind_eq_of_ok ((reads_typeName production _).complete hname)]
      rfl
  | template hfirst hopen hargs hname =>
      rw [readType_eq,
        reading_bind_eq_of_ok ((reads_word production).complete hfirst)]
      have hless := (reads_eat (by decide)).complete (.taken hopen)
      simp only [bind_assoc]
      rw [reading_bind_eq_of_ok hless]
      simp only [if_true]
      rw [reading_bind_eq_of_ok hargs.complete,
        reading_bind_eq_of_ok ((reads_typeName production _).complete hname)]
      rfl
theorem Arguments.complete {l : List TypeRef} {ts rest : List Token}
    (h : Arguments l ts rest) :
    readArguments (skipLines ts) = .ok (l, skipLines rest) := by
  cases h with
  | last htype hclose =>
      have hcomma : ¬ Ahead .comma _ := hclose.not_ahead (by decide) (by decide)
      rw [readArguments_eq,
        reading_bind_eq_of_ok (htype.complete .templateArguments),
        reading_bind_eq_of_ok ((reads_eat (by decide)).complete (.absent hcomma))]
      simp only [Bool.false_eq_true, if_false]
      have hgreater : expect .greater .templateArguments _ = .ok ((), _) :=
        (reads_expect (by decide) .templateArguments).complete hclose
      rw [reading_bind_eq_of_ok hgreater]
      rfl
  | more htype hcomma hmore =>
      rw [readArguments_eq,
        reading_bind_eq_of_ok (htype.complete .templateArguments),
        reading_bind_eq_of_ok ((reads_eat (by decide)).complete (.taken hcomma))]
      simp only [if_true]
      rw [reading_bind_eq_of_ok hmore.complete]
      rfl
end

theorem reads_readType (production : Production) :
    Reads (readType production) Typed where
  sound hts h := (sound_types _ _ rfl hts).1 _ _ _ h
  complete h := h.complete production

end Idl.Grammar
