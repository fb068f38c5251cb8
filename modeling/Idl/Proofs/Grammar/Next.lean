import Idl.Proofs.Grammar.Members

/-!
# Statements are read as the grammar has them

The grammar nests bodies and the reading of a source does not: it takes one
statement after the other, and what may stand next depends on the innermost
scope.  `Said` is the grammar of a single statement in a scope.
-/

namespace Idl.Grammar

/-! ## Directives -/

theorem wordOnLine_of_word {t : Token} (hkind : t.kind = .identifier)
    (production : Production) (ts : List Token) :
    wordOnLine production (t :: ts) = .ok (t.text, ts) := by
  rw [wordOnLine, textOnLine, if_pos hkind]

theorem readDefine_of_value {n v : Token} (hn : n.kind = .identifier)
    (hv : v.kind = .identifier) (ts : List Token) :
    readDefine (n :: v :: ts) = .ok (.define n.text (some v.text), ts) := by
  have hahead : ahead .identifier (v :: ts) = .ok (true, v :: ts) := by
    simp [ahead, hv]
  rw [readDefine, reading_bind_eq_of_ok (wordOnLine_of_word hn _ _),
    reading_bind_eq_of_ok hahead]
  simp only [if_true]
  rw [reading_bind_eq_of_ok (wordOnLine_of_word hv _ _)]
  rfl

theorem readDefine_of_none {n : Token} {ts : List Token}
    (hn : n.kind = .identifier)
    (hnone : ∀ v ∈ ts.head?, v.kind ≠ .identifier) :
    readDefine (n :: ts) = .ok (.define n.text none, ts) := by
  have hahead : ahead .identifier ts = .ok (false, ts) := by
    cases ts with
    | nil => rfl
    | cons v ts => simpa [ahead] using hnone
  rw [readDefine, reading_bind_eq_of_ok (wordOnLine_of_word hn _ _),
    reading_bind_eq_of_ok hahead]
  rfl

/-- A definition behind its word.  The value must stand on the same line, so
the line ends behind the definition are left. -/
theorem readDefine_eq_ok {ts rest : List Token} {d : Directive} :
    readDefine ts = .ok (d, rest) ↔
      ∃ n, n.kind = .identifier ∧
        ((ts = n :: rest ∧ (∀ v ∈ rest.head?, v.kind ≠ .identifier) ∧
            d = .define n.text none) ∨
          ∃ v, ts = n :: v :: rest ∧ v.kind = .identifier ∧
            d = .define n.text (some v.text)) := by
  constructor
  · intro h
    cases ts with
    | nil => cases h
    | cons n us =>
        by_cases hn : n.kind = .identifier
        · refine ⟨n, hn, ?_⟩
          by_cases hnone : ∀ v ∈ us.head?, v.kind ≠ .identifier
          · rw [readDefine_of_none hn hnone] at h
            cases h
            exact .inl ⟨rfl, hnone, rfl⟩
          · cases us with
            | nil => simp at hnone
            | cons v vs =>
                have hv : v.kind = .identifier := by simpa using hnone
                rw [readDefine_of_value hn hv] at h
                cases h
                exact .inr ⟨v, rfl, hv, rfl⟩
        · obtain ⟨text, mid, htext, -⟩ := reading_bind_eq_ok.mp h
          rw [wordOnLine, textOnLine, if_neg hn] at htext
          cases htext
  · intro hparts
    rcases hparts with ⟨n, hn, ⟨rfl, hnone, rfl⟩ | ⟨v, rfl, hv, rfl⟩⟩
    · exact readDefine_of_none hn hnone
    · exact readDefine_of_value hn hv rest

theorem reads_readInclude :
    Reads readInclude fun d a b =>
      ∃ path, d = .include path ∧ Literal path a b := by
  have hread : readInclude = (do
      let path ← (do
        let path ← textOnLine .literal .directive
        nextLine
        return path)
      return .include path) := by
    simp [readInclude]
  rw [hread]
  refine ((reads_text (by decide) .directive).bind fun path =>
    reads_pure (Directive.include path)).congr fun d a b => ?_
  constructor
  · intro hparts
    rcases hparts with ⟨path, _, hpath, rfl, rfl⟩
    exact ⟨path, rfl, hpath⟩
  · intro hparts
    rcases hparts with ⟨path, rfl, hpath⟩
    exact ⟨path, b, hpath, rfl, rfl⟩

theorem directed_of_readDirective {t : Token} {ts rest : List Token}
    {d : Directive} (hhash : t.kind = .hash)
    (h : readDirective (skipLines ts) = .ok (d, rest)) :
    Directed d (t :: ts) rest := by
  have hmark : Mark .hash (t :: ts) (skipLines ts) := .of_cons ts hhash
  cases hts : skipLines ts with
  | nil =>
      rw [hts] at h
      cases h
  | cons u us =>
      rw [hts] at h hmark
      rw [readDirective] at h
      split at h
      next hkind =>
        have hword : Word u.text (u :: us) (skipLines us) := .of_cons us hkind
        split at h
        next hdefine =>
          rw [hdefine] at hword
          rcases readDefine_eq_ok.mp h with
            ⟨n, hn, ⟨hus, hnone, rfl⟩ | ⟨v, hus, hv, rfl⟩⟩
          · rw [hus] at hword
            exact .define hmark hword hn hnone
          · rw [hus] at hword
            exact .defineValue hmark hword hn hv
        next =>
          split at h
          next hinclude =>
            rw [hinclude] at hword
            obtain ⟨⟨path, rfl, hpath⟩, -⟩ :=
              reads_readInclude.sound (settled_skipLines us) h
            exact .include hmark hword hpath
          next => cases h
      next => cases h

theorem readDirective_of_directed {ts rest : List Token} {d : Directive}
    (h : Directed d ts rest) :
    ∃ t us rest', ts = t :: us ∧ t.kind = .hash ∧
      readDirective (skipLines us) = .ok (d, rest') ∧
        skipLines rest' = skipLines rest := by
  have hfront : ∀ {word a b}, Mark .hash ts a → Word word a b →
      ∃ t us u vs, ts = t :: us ∧ t.kind = .hash ∧ skipLines us = u :: vs ∧
        u.kind = .identifier ∧ u.text = word ∧ skipLines vs = skipLines b := by
    rintro word a b ⟨text, hmark⟩ hword
    rcases hmark.front with ⟨t, us, rfl, hkind, -, hus⟩
    rcases hword.front with ⟨u, vs, rfl, hukind, hutext, hvs⟩
    have hsettled : skipLines (u :: vs) = u :: vs :=
      settled_cons.mpr (by simp [hukind])
    exact ⟨t, us, u, vs, rfl, hkind, by rw [hus, hsettled], hukind, hutext, hvs⟩
  cases h with
  | @define n a b rest hhash hword hn hnone =>
      obtain ⟨t, us, u, vs, rfl, hkind, hus, hukind, hutext, hvs⟩ :=
        hfront hhash hword
      have hsettled : skipLines (n :: rest) = n :: rest :=
        settled_cons.mpr (by simp [hn])
      refine ⟨t, us, rest, rfl, hkind, ?_, rfl⟩
      rw [hus, readDirective, if_pos hukind, if_pos hutext, hvs, hsettled]
      exact readDefine_of_none hn hnone
  | @defineValue n v a b rest hhash hword hn hv =>
      obtain ⟨t, us, u, vs, rfl, hkind, hus, hukind, hutext, hvs⟩ :=
        hfront hhash hword
      have hsettled : skipLines (n :: v :: rest) = n :: v :: rest :=
        settled_cons.mpr (by simp [hn])
      refine ⟨t, us, rest, rfl, hkind, ?_, rfl⟩
      rw [hus, readDirective, if_pos hukind, if_pos hutext, hvs, hsettled]
      exact readDefine_of_value hn hv rest
  | «include» hhash hword hpath =>
      obtain ⟨t, us, u, vs, rfl, hkind, hus, hukind, hutext, hvs⟩ :=
        hfront hhash hword
      refine ⟨t, us, _, rfl, hkind, ?_, settled_skipLines rest⟩
      rw [hus, readDirective, if_pos hukind, if_neg (by simp [hutext]),
        if_pos hutext, hvs]
      exact reads_readInclude.complete ⟨_, rfl, hpath⟩

/-! ## Statements -/

/-- A statement that starts with a word, which no two kinds of scope but the
outermost and that of a module share. -/
inductive Worded : ScopeKind → Statement → Phrase where
  | declaring {scope : ScopeKind} {keyword : Keyword} {s : Statement}
      {a b c : List Token} (hscope : scope = .global ∨ scope = .module)
      (hword : Word keyword.word a b) (hstated : Stated keyword s b c) :
      Worded scope s a c
  | member {m : Member} {a b : List Token} (hfield : Field m a b) :
      Worded .struct (.member m) a b
  | enumerator {name : String} {a b : List Token}
      (henumerator : Enumerator name a b) :
      Worded .enum (.enumerator name) a b
  | method {m : Method} {a b : List Token} (hcalled : Called m a b) :
      Worded .interface (.method m) a b
  | unionCase {c : UnionCase} {a b : List Token} (hselected : Selected c a b) :
      Worded .union (.unionCase c) a b

inductive Said (scope : ScopeKind) : Statement → Phrase where
  | directive {d : Directive} {a b : List Token}
      (hdirective : Directed d a b) : Said scope (.directive d) a b
  | skip {t : Token} {ls a : List Token} (hignored : Ignored t)
      (hls : LineEnds ls) : Said scope .skip (t :: (ls ++ a)) a
  | close {a b : List Token} (hscope : scope ≠ .global)
      (hclose : Mark .closeBrace a b) : Said scope .close a b
  | worded {s : Statement} {a b : List Token} (hworded : Worded scope s a b) :
      Said scope s a b

theorem ofWord?_word_keyword (k : Keyword) :
    Keyword.ofWord? k.word = some k := by
  cases k <;> rfl

theorem word_of_ofWord?_keyword {w : String} {k : Keyword}
    (h : Keyword.ofWord? w = some k) : k.word = w := by
  simpa using List.find?_some h

theorem worded_declaring {scope : ScopeKind} {t : Token}
    {ts rest : List Token} {s : Statement}
    (hscope : scope = .global ∨ scope = .module) (hkind : t.kind = .identifier)
    (h : readWordStatement scope t ts = .ok (s, rest)) :
    Worded scope s (t :: ts) rest := by
  have hread : ∀ k, Keyword.ofWord? t.text = some k →
      k.statement (skipLines ts) = .ok (s, rest) →
        Worded scope s (t :: ts) rest := by
    intro k hk hs
    have hword : Word k.word (t :: ts) (skipLines ts) := by
      rw [word_of_ofWord?_keyword hk]
      exact .of_cons ts hkind
    have hstated := (reads_keyword_statement k).sound (settled_skipLines ts) hs
    exact .declaring hscope hword hstated.1
  rcases hscope with rfl | rfl
  all_goals
    simp only [readWordStatement] at h
    split at h
    next => cases h
    next k hk => exact hread k hk h

theorem worded_of_readWordStatement {scope : ScopeKind} {t : Token}
    {ts rest : List Token} {s : Statement} (hkind : t.kind = .identifier)
    (h : readWordStatement scope t ts = .ok (s, rest)) :
    Worded scope s (t :: ts) rest := by
  have hsettled : Settled (t :: ts) := settled_cons.mpr (by simp [hkind])
  cases scope with
  | global => exact worded_declaring (.inl rfl) hkind h
  | module => exact worded_declaring (.inr rfl) hkind h
  | struct =>
      obtain ⟨m, hm, rfl⟩ := reading_map_eq_ok.mp h
      exact .member ((reads_readMember _).sound hsettled hm).1
  | enum =>
      obtain ⟨name, hname, rfl⟩ := reading_map_eq_ok.mp h
      exact .enumerator (reads_readEnumerator.sound hsettled hname).1
  | interface =>
      obtain ⟨m, hm, rfl⟩ := reading_map_eq_ok.mp h
      exact .method (reads_readMethod.sound hsettled hm).1
  | union =>
      obtain ⟨c, hc, rfl⟩ := reading_map_eq_ok.mp h
      exact .unionCase (reads_readCase.sound hsettled hc).1

theorem said_of_readStatement {scope : ScopeKind} {t : Token}
    {ts rest : List Token} {s : Statement}
    (h : readStatement scope t ts = .ok (s, rest)) :
    Said scope s (t :: ts) rest := by
  unfold readStatement at h
  split at h
  next hhash =>
    obtain ⟨d, hd, rfl⟩ := reading_map_eq_ok.mp h
    exact .directive (directed_of_readDirective hhash hd)
  next hkind => exact .worded (worded_of_readWordStatement hkind h)
  next hkind =>
    split at h
    next => cases h
    next hscope =>
      cases h
      exact .close hscope (.of_cons ts hkind)
  next hhash hword hclose =>
    cases h
    obtain ⟨ls, hls, hts⟩ := exists_lineEnds ts
    rw [hts, skipLines_lineEnds_append hls, settled_skipLines]
    exact .skip ⟨hhash, hword, hclose⟩ hls

def WordFirst (ts : List Token) : Prop :=
  ∃ t us, ts = t :: us ∧ t.kind = .identifier

theorem wordFirst_of_word {text : String} {a b : List Token}
    (h : Word text a b) : WordFirst a := by
  rcases h.front with ⟨t, us, rfl, hkind, -, -⟩
  exact ⟨t, us, rfl, hkind⟩

theorem Typed.wordFirst {t : TypeRef} {a b : List Token} (h : Typed t a b) :
    WordFirst a := by
  cases h with
  | plain hfirst => exact wordFirst_of_word hfirst
  | template hfirst => exact wordFirst_of_word hfirst

theorem Field.wordFirst {m : Member} {a b : List Token} (h : Field m a b) :
    WordFirst a := by
  rcases h with ⟨htype, -, -⟩
  exact htype.wordFirst

theorem Enumerator.wordFirst {name : String} {a b : List Token}
    (h : Enumerator name a b) : WordFirst a := by
  rcases h with ⟨hname, -⟩
  exact wordFirst_of_word hname

theorem Called.wordFirst {m : Method} {a b : List Token} (h : Called m a b) :
    WordFirst a := by
  rcases h with ⟨hresult, -, -, -⟩
  exact hresult.wordFirst

theorem Selected.wordFirst {c : UnionCase} {a b : List Token}
    (h : Selected c a b) : WordFirst a := by
  rcases h with ⟨hword, -, -, -, -, -⟩
  exact wordFirst_of_word hword

theorem readStatement_of_word {t : Token} (hkind : t.kind = .identifier)
    (scope : ScopeKind) (ts : List Token) :
    readStatement scope t ts = readWordStatement scope t ts := by
  simp only [readStatement, hkind]

/-- A phrase that starts with a word is a statement where the scope reads it
from that word on. -/
theorem readStatement_of_reads {α : Type} {r : Reading α} {p : α → Phrase}
    (hreads : Reads r p) {scope : ScopeKind} {say : α → Statement}
    (hscope : ∀ t ts, readWordStatement scope t ts = (say <$> r) (t :: ts))
    {x : α} {ts rest : List Token} (h : p x ts rest) (hword : WordFirst ts) :
    ∃ t us rest', ts = t :: us ∧
      readStatement scope t us = .ok (say x, rest') ∧
        skipLines rest' = skipLines rest := by
  rcases hword with ⟨t, us, rfl, hkind⟩
  have hsettled : skipLines (t :: us) = t :: us :=
    settled_cons.mpr (by simp [hkind])
  have hr := hreads.complete h
  rw [hsettled] at hr
  refine ⟨t, us, skipLines rest, rfl, ?_, settled_skipLines rest⟩
  rw [readStatement_of_word hkind, hscope]
  exact reading_map_eq_ok.mpr ⟨x, hr, rfl⟩

theorem readStatement_of_worded {scope : ScopeKind} {s : Statement}
    {ts rest : List Token} (h : Worded scope s ts rest) :
    ∃ t us rest', ts = t :: us ∧
      readStatement scope t us = .ok (s, rest') ∧
        skipLines rest' = skipLines rest := by
  cases h with
  | @declaring scope keyword s a b c hscope hword hstated =>
      rcases hword.front with ⟨t, us, rfl, hkind, htext, hrest⟩
      have hread := (reads_keyword_statement keyword).complete hstated
      rw [← hrest] at hread
      refine ⟨t, us, skipLines rest, rfl, ?_, settled_skipLines rest⟩
      rw [readStatement_of_word hkind]
      rcases hscope with rfl | rfl
      all_goals simp only [readWordStatement, htext, ofWord?_word_keyword, hread]
  | member hfield =>
      exact readStatement_of_reads (reads_readMember _) (fun _ _ => rfl) hfield
        hfield.wordFirst
  | enumerator henumerator =>
      exact readStatement_of_reads reads_readEnumerator (fun _ _ => rfl)
        henumerator henumerator.wordFirst
  | method hcalled =>
      exact readStatement_of_reads reads_readMethod (fun _ _ => rfl) hcalled
        hcalled.wordFirst
  | unionCase hselected =>
      exact readStatement_of_reads reads_readCase (fun _ _ => rfl) hselected
        hselected.wordFirst

theorem readStatement_of_said {scope : ScopeKind} {s : Statement}
    {ts rest : List Token} (h : Said scope s ts rest) :
    ∃ t us rest', ts = t :: us ∧
      readStatement scope t us = .ok (s, rest') ∧
        skipLines rest' = skipLines rest := by
  cases h with
  | directive hdirective =>
      obtain ⟨t, us, rest', rfl, hkind, hread, hrest⟩ :=
        readDirective_of_directed hdirective
      refine ⟨t, us, rest', rfl, ?_, hrest⟩
      simp only [readStatement, hkind]
      exact reading_map_eq_ok.mpr ⟨_, hread, rfl⟩
  | @skip t ls a hignored hls =>
      rcases hignored with ⟨hhash, hword, hclose⟩
      refine ⟨t, ls ++ rest, skipLines rest, rfl, ?_, settled_skipLines rest⟩
      rw [← skipLines_lineEnds_append hls rest]
      unfold readStatement
      split
      next hkind => exact absurd hkind hhash
      next hkind => exact absurd hkind hword
      next hkind => exact absurd hkind hclose
      next => rfl
  | close hscope hclose =>
      rcases hclose with ⟨text, hclose⟩
      rcases hclose.front with ⟨t, us, rfl, hkind, -, hrest⟩
      refine ⟨t, us, skipLines us, rfl, ?_, by rw [settled_skipLines, hrest]⟩
      simp only [readStatement, hkind, if_neg hscope]
  | worded hworded => exact readStatement_of_worded hworded

end Idl.Grammar
