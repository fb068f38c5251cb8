import Idl.Proofs.Assembly.Concatenation
import Idl.Proofs.Assembly.LineEnds
import Mathlib.Data.List.Forall2

/-!
# Directives

Every number sign of a source that parses starts a directive, and the tree
lists these directives in source order.  Apart from that they change nothing:
the source parses without them to the same modules.

The statement in front of a directive need not be complete there.  A method
may get its semicolon and an enumerator its commas behind the directive, where
they are ignored, and without the directive the same statement takes them.  So
the two runs are not compared statement by statement but from one directive to
the next: up to a directive a run sees nothing of what follows, and what it has
read it would read as well if the rest stood on a line of its own.
-/

namespace Idl

open Grammar

/-! ## Leaving directives out -/

/-- What is due next: anything outside directives, or the part of a
directive. -/
inductive DirectivePart where
  | outside
  | word
  | name
  | value
  | path
  deriving DecidableEq, Repr

/-- Drops all directives and keeps the line ends inside them. -/
def dropDirectives : DirectivePart → List Token → List Token
  | _, [] => []
  | .outside, t :: ts =>
    if t.kind = .hash then dropDirectives .word ts
    else t :: dropDirectives .outside ts
  | .word, t :: ts =>
    if t.kind = .endLine then t :: dropDirectives .word ts
    else if t.isWord "define" then dropDirectives .name ts
    else if t.isWord "include" then dropDirectives .path ts
    else dropDirectives .outside ts
  | .name, t :: ts =>
    if t.kind = .endLine then t :: dropDirectives .name ts
    else dropDirectives .value ts
  | .value, t :: ts =>
    if t.kind = .identifier then dropDirectives .outside ts
    else if t.kind = .hash then dropDirectives .word ts
    else t :: dropDirectives .outside ts
  | .path, t :: ts =>
    if t.kind = .endLine then t :: dropDirectives .path ts
    else dropDirectives .outside ts

def withoutDirectives (ts : List Token) : List Token :=
  dropDirectives .outside ts

/-- The rests of the stream that start with a number sign. -/
def fromHashes : List Token → List (List Token)
  | [] => []
  | t :: ts =>
    if t.kind = .hash then (t :: ts) :: fromHashes ts else fromHashes ts

def HashFree (ts : List Token) : Prop := ∀ t ∈ ts, t.kind ≠ .hash

theorem hashFree_nil : HashFree [] := nofun

theorem hashFree_cons {t : Token} {ts : List Token} :
    HashFree (t :: ts) ↔ t.kind ≠ .hash ∧ HashFree ts :=
  List.forall_mem_cons

theorem hashFree_append {ts us : List Token} :
    HashFree (ts ++ us) ↔ HashFree ts ∧ HashFree us :=
  List.forall_mem_append

theorem HashFree.of_suffix {ts us : List Token} (h : HashFree us)
    (hsuffix : ts <:+ us) : HashFree ts :=
  fun t ht => h t (hsuffix.subset ht)

theorem hashFree_lineEnds {ls : List Token} (hls : LineEnds ls) :
    HashFree ls :=
  fun l hl hkind => by simp [hls l hl] at hkind

theorem hashFree_or_split (ts : List Token) :
    HashFree ts ∨ ∃ front hash us, ts = front ++ hash :: us ∧
      HashFree front ∧ hash.kind = .hash := by
  induction ts with
  | nil => exact .inl hashFree_nil
  | cons t ts ih =>
      by_cases ht : t.kind = .hash
      · exact .inr ⟨[], t, ts, rfl, hashFree_nil, ht⟩
      · obtain hfree | ⟨front, hash, us, rfl, hfree, hhash⟩ := ih
        · exact .inl (hashFree_cons.mpr ⟨ht, hfree⟩)
        · exact .inr ⟨t :: front, hash, us, rfl,
            hashFree_cons.mpr ⟨ht, hfree⟩, hhash⟩

theorem length_fromHashes (ts : List Token) :
    (fromHashes ts).length = ts.countP fun t => t.kind == .hash := by
  induction ts with
  | nil => rfl
  | cons t ts ih =>
      by_cases ht : t.kind = .hash
      · simp [fromHashes, ht, ih]
      · simp [fromHashes, ht, ih]

section
variable {front ls : List Token}

theorem fromHashes_append (h : HashFree front) (ts : List Token) :
    fromHashes (front ++ ts) = fromHashes ts := by
  induction front with
  | nil => rfl
  | cons t front ih =>
      obtain ⟨ht, hfree⟩ := hashFree_cons.mp h
      rw [List.cons_append, fromHashes, if_neg ht, ih hfree]

theorem withoutDirectives_append (h : HashFree front) (ts : List Token) :
    withoutDirectives (front ++ ts) = front ++ withoutDirectives ts := by
  induction front with
  | nil => rfl
  | cons t front ih =>
      obtain ⟨ht, hfree⟩ := hashFree_cons.mp h
      have hmore := ih hfree
      unfold withoutDirectives at hmore ⊢
      rw [List.cons_append, dropDirectives, if_neg ht, hmore, List.cons_append]

theorem withoutDirectives_of_free (h : HashFree front) :
    withoutDirectives front = front := by
  have hnil : withoutDirectives [] = [] := rfl
  have happend := withoutDirectives_append h []
  rwa [List.append_nil, hnil, List.append_nil] at happend

/-- Between the parts of a directive line ends are kept. -/
theorem dropDirectives_lineEnds {part : DirectivePart}
    (hpart : part ≠ .value) (hls : LineEnds ls) (ts : List Token) :
    dropDirectives part (ls ++ ts) = ls ++ dropDirectives part ts := by
  induction ls with
  | nil => rfl
  | cons l ls ih =>
      obtain ⟨hl, hmore⟩ := List.forall_mem_cons.mp hls
      rw [List.cons_append, List.cons_append, ← ih hmore]
      cases part with
      | value => exact absurd rfl hpart
      | _ => simp [dropDirectives, hl]

end

theorem dropDirectives_noValue {ts : List Token}
    (hnone : ∀ v ∈ ts.head?, v.kind ≠ .identifier) :
    dropDirectives .value ts = withoutDirectives ts := by
  cases ts with
  | nil => rfl
  | cons t ts =>
      simp [withoutDirectives, dropDirectives, hnone t rfl]

/-! ## One directive -/

/-- A directive as it is dropped: its number sign, tokens that are none, and
the line ends that stay. -/
structure Dropped (a b : List Token) : Prop where
  front : ∃ hash passed, a = hash :: (passed ++ b) ∧ hash.kind = .hash ∧
    HashFree passed
  kept : ∃ ls, LineEnds ls ∧ withoutDirectives a = ls ++ withoutDirectives b

theorem lineEnds_append {ls ms : List Token} (hls : LineEnds ls)
    (hms : LineEnds ms) : LineEnds (ls ++ ms) :=
  List.forall_mem_append.mpr ⟨hls, hms⟩

/-- The number sign and the word of a directive in front of something. -/
theorem dropDirectives_front {hash word : Token} {ls ms : List Token}
    (hhash : hash.kind = .hash) (hls : LineEnds ls) (hms : LineEnds ms)
    {part : DirectivePart} (hvalue : part ≠ .value)
    (hpart : ∀ ts, dropDirectives .word (word :: ts) = dropDirectives part ts)
    (ts : List Token) :
    withoutDirectives (hash :: (ls ++ word :: (ms ++ ts))) =
      ls ++ (ms ++ dropDirectives part ts) := by
  rw [withoutDirectives, dropDirectives, if_pos hhash,
    dropDirectives_lineEnds (by decide) hls, hpart,
    dropDirectives_lineEnds hvalue hms]

theorem dropped_of_directed {d : Directive} {a b : List Token}
    (h : Directed d a b) : Dropped a b := by
  have hdefine : ∀ {word : Token}, word.kind = .identifier →
      word.text = "define" → ∀ ts,
        dropDirectives .word (word :: ts) = dropDirectives .name ts := by
    intro word hkind htext ts
    simp [dropDirectives, Token.isWord, hkind, htext]
  have hinclude : ∀ {word : Token}, word.kind = .identifier →
      word.text = "include" → ∀ ts,
        dropDirectives .word (word :: ts) = dropDirectives .path ts := by
    intro word hkind htext ts
    simp [dropDirectives, Token.isWord, hkind, htext]
  cases h with
  | @define n _ _ _ hhash hword hname hnone =>
      obtain ⟨_, @⟨hash, ls, _, hhash, -, hls⟩⟩ := hhash
      obtain @⟨word, ms, _, hkind, htext, hms⟩ := hword
      refine ⟨⟨hash, ls ++ word :: (ms ++ [n]), by simp, hhash, ?_⟩,
        ls ++ ms, lineEnds_append hls hms, ?_⟩
      · simp [hashFree_append, hashFree_cons, hashFree_nil, hkind, hname,
          hashFree_lineEnds hls, hashFree_lineEnds hms]
      · rw [dropDirectives_front hhash hls hms (by decide)
            (hdefine hkind htext),
          dropDirectives, if_neg (by simp [hname]),
          dropDirectives_noValue hnone, List.append_assoc]
  | @defineValue n v _ _ _ hhash hword hname hvalue =>
      obtain ⟨_, @⟨hash, ls, _, hhash, -, hls⟩⟩ := hhash
      obtain @⟨word, ms, _, hkind, htext, hms⟩ := hword
      refine ⟨⟨hash, ls ++ word :: (ms ++ [n, v]), by simp, hhash, ?_⟩,
        ls ++ ms, lineEnds_append hls hms, ?_⟩
      · simp [hashFree_append, hashFree_cons, hashFree_nil, hkind, hname,
          hvalue, hashFree_lineEnds hls, hashFree_lineEnds hms]
      · rw [dropDirectives_front hhash hls hms (by decide)
            (hdefine hkind htext),
          dropDirectives, if_neg (by simp [hname]), dropDirectives,
          if_pos hvalue, List.append_assoc]
        rfl
  | «include» hhash hword hpath =>
      obtain ⟨_, @⟨hash, ls, _, hhash, -, hls⟩⟩ := hhash
      obtain @⟨word, ms, _, hkind, htext, hms⟩ := hword
      obtain @⟨path, ns, _, hliteral, -, hns⟩ := hpath
      refine ⟨⟨hash, ls ++ word :: (ms ++ path :: ns), by simp, hhash, ?_⟩,
        ls ++ (ms ++ ns), lineEnds_append hls (lineEnds_append hms hns), ?_⟩
      · simp [hashFree_append, hashFree_cons, hkind, hliteral,
          hashFree_lineEnds hls, hashFree_lineEnds hms, hashFree_lineEnds hns]
      · rw [dropDirectives_front hhash hls hms (by decide)
            (hinclude hkind htext),
          dropDirectives, if_neg (by simp [hliteral]),
          dropDirectives_lineEnds (by decide) hns, List.append_assoc,
          List.append_assoc]
        rfl

/-! ## Up to a directive -/

/-- The second stream is the first one without the rest `us`. -/
structure CutOff (us ts front : List Token) : Prop where
  whole : ts = front ++ us
  free : HashFree front

theorem skipLines_append_settled {us : List Token} (hus : Settled us)
    (ts : List Token) : skipLines (ts ++ us) = skipLines ts ++ us := by
  by_cases hts : skipLines ts = []
  · obtain ⟨ls, hls, htsLines⟩ := exists_lineEnds ts
    rw [hts, List.append_nil] at htsLines
    rw [hts, htsLines, skipLines_lineEnds_append hls, hus, List.nil_append]
  · exact skipLines_append_of_ne_nil hts us

section
variable {a b : Assembly} {hash : Token} {us : List Token}

theorem inStep_cutOff (hhash : hash.kind = .hash) :
    InStep (Level (CutOff (hash :: us))) := by
  rintro ts front ⟨-, hsettled, rfl, hfree⟩
  cases front with
  | nil => exact .halted (.hash hhash) .ended
  | cons t front =>
      obtain ⟨ht, hfree⟩ := hashFree_cons.mp hfree
      have hbehind : skipLines (front ++ hash :: us) =
          skipLines front ++ hash :: us :=
        skipLines_append_settled (settled_cons.mpr (by simp [hhash])) front
      exact .token rfl ht (settled_cons.mp hsettled)
        ⟨settled_skipLines _, settled_skipLines _, hbehind,
          hfree.of_suffix (skipLines_suffix front)⟩

/-- A statement that starts in front of a directive is read without it as
well, up to the same place. -/
theorem readStatement_cutOff (hhash : hash.kind = .hash) {scope : ScopeKind}
    {t : Token} {front rest : List Token} {s : Statement}
    (hsettled : Settled (t :: front)) (hfree : HashFree (t :: front))
    (h : readStatement scope t (front ++ hash :: us) = .ok (s, rest)) :
    ∃ rest', rest = rest' ++ hash :: us ∧ HashFree rest' ∧
      readStatement scope t front = .ok (s, rest') := by
  have hcut : CutOff (hash :: us) (t :: (front ++ hash :: us)) (t :: front) :=
    ⟨rfl, hfree⟩
  have hagreed := (inStep_cutOff hhash).readStatement scope
    ⟨settled_cons.mpr (settled_cons.mp hsettled), hsettled, hcut⟩
    (hashFree_cons.mp hfree).1
  rw [h] at hagreed
  generalize hread : readStatement scope t front = second at hagreed
  cases hagreed with
  | @ok _ s' _ rest' _ hrest =>
      have hstopped : Stopped openKinds (hash :: us) :=
        stopped_cons ⟨by simp, by simp [hhash],
          by simp [Token.isWord, hhash]⟩ (by simp [hhash, openKinds])
      rw [readStatement_append hread fun _ => hstopped] at h
      cases h
      exact ⟨rest', rfl, hrest.related.free, rfl⟩

/-- A run comes to every directive on its way between two statements. -/
theorem run_upTo_hash (hhash : hash.kind = .hash) {front : List Token}
    (hfree : HashFree front) {fin : Assembly}
    (h : a.run (front ++ hash :: us) = .ok fin) :
    ∃ b, a.run front = .ok b ∧ b.run (hash :: us) = .ok fin := by
  have hhashSettled : Settled (hash :: us) :=
    settled_cons.mpr (by simp [hhash])
  induction hlength : front.length using Nat.strongRecOn
    generalizing a front with
  | ind n ih =>
      have hsettled := settled_skipLines front
      have hle := skipLines_length_le front
      have hfree := hfree.of_suffix (skipLines_suffix front)
      rw [← run_skipLines, skipLines_append_settled hhashSettled] at h
      rw [← run_skipLines a front]
      generalize skipLines front = front at hsettled hle hfree h
      cases front with
      | nil => exact ⟨a, Assembly.run_nil a, h⟩
      | cons t front =>
          rw [List.cons_append, Assembly.run_cons] at h
          split at h
          next => cases h
          next s rest hread =>
            obtain ⟨rest', rfl, hfree', hread'⟩ :=
              readStatement_cutOff hhash hsettled hfree hread
            have hlt := readStatement_length_le hread'
            rw [List.length_cons] at hle
            rw [run_eq_of_readStatement hread']
            exact ih rest'.length (by omega) hfree' h rfl

/-- A line end, to stand between two streams. -/
def lineEnd : Token := ⟨.endLine, "", .point 0⟩

/-- A run over a stream without directives goes on with whatever follows, up to
where a fault is reported. -/
theorem run_append_of_free {front : List Token} (hfree : HashFree front)
    (h : a.run front = .ok b) (us : List Token) :
    Alike (b.run us) (a.run (front ++ us)) := by
  have hends : ¬ EndsInDefinition front := by
    rintro ⟨hash, word, name, hhash, -, -, hsuffix⟩
    have hmem : hash ∈ significant front := hsuffix.subset (by simp)
    exact hfree hash (List.mem_of_mem_filter hmem) hhash
  have hinsert : ∀ us, Alike (a.run (front ++ lineEnd :: us))
      (a.run (front ++ us)) := fun us =>
    run_parted rfl (fun hdefinition => absurd hdefinition hends) a
      (.ahead List.suffix_rfl)
  have hended : a.run (front ++ [lineEnd]) = .ok b := by
    have halike := hinsert []
    rw [List.append_nil] at halike
    exact halike.symm.eq_ok h
  have hsealed : Sealed (front ++ [lineEnd]) := by
    simp [Sealed, lineEnd]
  have hrun := run_append hended hsealed us
  rw [List.append_assoc] at hrun
  exact hrun ▸ hinsert us

end

/-! ## Runs without directives -/

/-- The state with other directives in its tree. -/
def Assembly.withDirectives (a : Assembly) (ds : List Directive) : Assembly :=
  { a with tree := { a.tree with directives := ds } }

section
variable {a fin : Assembly}

theorem scopeKind_withDirectives (ds : List Directive) :
    (a.withDirectives ds).scopeKind = a.scopeKind := rfl

theorem fill_withDirectives (ds : List Directive)
    (change : Target → ModuleDecl → ModuleDecl) :
    (a.withDirectives ds).fill change = (a.fill change).withDirectives ds := by
  rcases a with ⟨tree, current, scopes⟩
  cases scopes with
  | nil => rfl
  | cons scope scopes => rfl

theorem close_withDirectives (ds : List Directive) :
    (a.withDirectives ds).close = a.close.withDirectives ds := by
  rcases a with ⟨tree, current, scopes⟩
  cases scopes with
  | nil => rfl
  | cons scope scopes =>
      rcases scope with ⟨target, name, site⟩
      cases target <;> rfl

theorem apply_withDirectives {s : Statement} (hs : ∀ d, s ≠ .directive d)
    (ds : List Directive) :
    (a.withDirectives ds).apply s = (a.apply s).withDirectives ds := by
  cases s with
  | directive d => exact absurd rfl (hs d)
  | member =>
      simp only [Assembly.apply, Assembly.addMember, fill_withDirectives]
  | enumerator =>
      simp only [Assembly.apply, Assembly.addEnumerator, fill_withDirectives]
  | method =>
      simp only [Assembly.apply, Assembly.addMethod, fill_withDirectives]
  | unionCase =>
      simp only [Assembly.apply, Assembly.addCase, fill_withDirectives]
  | close => exact close_withDirectives ds
  | _ => rfl

theorem not_directive_of_readStatement {scope : ScopeKind} {t : Token}
    {ts rest : List Token} {s : Statement} (ht : t.kind ≠ .hash)
    (h : readStatement scope t ts = .ok (s, rest)) (d : Directive) :
    s ≠ .directive d := by
  rintro rfl
  cases said_of_readStatement h with
  | directive hdirective =>
      obtain ⟨hash, passed, hfront, hhash, -⟩ :=
        (dropped_of_directed hdirective).front
      cases hfront
      exact ht hhash
  | worded hworded =>
      cases hworded with
      | declaring _ _ hstated => cases hstated

theorem run_withDirectives {ts : List Token} (hfree : HashFree ts)
    (ds : List Directive) :
    (a.withDirectives ds).run ts = (a.run ts).map (·.withDirectives ds) := by
  induction a, ts using Assembly.run.induct with
  | case1 a => simp [Assembly.run_nil, Except.map]
  | case2 a t ts failure hread =>
      rw [Assembly.run_cons, Assembly.run_cons, scopeKind_withDirectives, hread]
      rfl
  | case3 a t ts s rest hread hlt ih =>
      have ht := (hashFree_cons.mp hfree).1
      have hnext : nextStatement a.scopeKind (t :: ts) = .ok (s, rest) := hread
      have hlocal := (Composed.nextStatement a.scopeKind).isLocal
      have hrest : HashFree rest := hfree.of_suffix (hlocal.suffix_ok hnext)
      rw [Assembly.run_cons, Assembly.run_cons, scopeKind_withDirectives, hread,
        ← ih hrest, ← apply_withDirectives
          (not_directive_of_readStatement ht hread)]

theorem run_withDirectives_of_free {ts : List Token} (hfree : HashFree ts)
    (h : a.run ts = .ok fin) (ds : List Directive) :
    (a.withDirectives ds).run ts = .ok (fin.withDirectives ds) := by
  rw [run_withDirectives hfree, h]
  rfl

theorem directives_of_free {ts : List Token} (hfree : HashFree ts)
    (h : a.run ts = .ok fin) : fin.tree.directives = a.tree.directives := by
  have hrun := run_withDirectives_of_free hfree h a.tree.directives
  have hsame : a.withDirectives a.tree.directives = a := rfl
  rw [hsame, h] at hrun
  exact congrArg (fun b => b.tree.directives) (Except.ok.inj hrun)

/-- A run that does not fail reads a directive at every number sign. -/
theorem run_of_hash {hash : Token} {us : List Token}
    (hhash : hash.kind = .hash) (h : a.run (hash :: us) = .ok fin) :
    ∃ d rest, Directed d (hash :: us) rest ∧
      (a.apply (.directive d)).run rest = .ok fin := by
  rw [Assembly.run_cons, readStatement_of_hash hhash] at h
  generalize hread : (Statement.directive <$> readDirective) (skipLines us) =
    result at h
  cases result with
  | error failure => cases h
  | ok p =>
      rcases p with ⟨s, rest⟩
      obtain ⟨d, hdirective, rfl⟩ := reading_map_eq_ok.mp hread
      exact ⟨d, rest, directed_of_readDirective hhash hdirective, h⟩

/-- A run that succeeds can be put behind one without directives, with line ends
between the two. -/
theorem run_append_lineEnds {front ls us : List Token} {b : Assembly}
    (hfree : HashFree front) (hls : LineEnds ls) (hfront : a.run front = .ok b)
    (h : b.run us = .ok fin) : a.run (front ++ (ls ++ us)) = .ok fin := by
  refine (run_append_of_free hfree hfront (ls ++ us)).eq_ok ?_
  rw [← run_skipLines, skipLines_lineEnds_append hls, run_skipLines, h]

/-- A run records the directives on its way, and without them it builds the
same modules. -/
theorem run_withoutDirectives {ts : List Token} (h : a.run ts = .ok fin) :
    ∃ ds, fin.tree.directives = a.tree.directives ++ ds ∧
      List.Forall₂ (fun d us => ∃ rest, Directed d us rest) ds
        (fromHashes ts) ∧
      (a.withDirectives []).run (withoutDirectives ts) =
        .ok (fin.withDirectives []) := by
  -- From one directive to the next, as a statement may end on either side.
  induction hlength : ts.length using Nat.strongRecOn generalizing a ts with
  | ind n ih =>
      obtain hfree | ⟨front, hash, us, rfl, hfree, hhash⟩ :=
        hashFree_or_split ts
      · have hnone := fromHashes_append hfree []
        rw [List.append_nil] at hnone
        rw [directives_of_free hfree h, hnone, withoutDirectives_of_free hfree]
        exact ⟨[], (List.append_nil _).symm, .nil,
          run_withDirectives_of_free hfree h []⟩
      · obtain ⟨b, hfront, hbehind⟩ := run_upTo_hash hhash hfree h
        obtain ⟨d, rest, hdirected, hrest⟩ := run_of_hash hhash hbehind
        obtain ⟨⟨_, passed, hsplit, -, hpassed⟩, ls, hls, hkept⟩ :=
          dropped_of_directed hdirected
        cases hsplit
        have hlt : rest.length < n := by
          simp only [List.length_append, List.length_cons] at hlength
          omega
        obtain ⟨ds, hrecorded, hstarts, hrun⟩ :=
          ih rest.length hlt hrest rfl
        refine ⟨d :: ds, ?_, ?_, ?_⟩
        · rw [hrecorded, ← directives_of_free hfree hfront]
          simp [Assembly.apply, ModuleTree.addDirective]
        · rw [fromHashes_append hfree, fromHashes, if_pos hhash,
            fromHashes_append hpassed]
          exact .cons ⟨rest, hdirected⟩ hstarts
        · rw [withoutDirectives_append hfree, hkept]
          exact run_append_lineEnds hfree hls
            (run_withDirectives_of_free hfree hfront []) hrun

end

/-- Every number sign starts a directive that is recorded once and in order,
and without its directives the source parses to the same modules. -/
theorem parse_withoutDirectives {ts : List Token} {tree : ModuleTree}
    (h : parse ts = .ok tree) :
    List.Forall₂ (fun d us => ∃ rest, Directed d us rest) tree.directives
      (fromHashes ts) ∧
    tree.directives.length = ts.countP (fun t => t.kind == .hash) ∧
    parse (withoutDirectives ts) = .ok { tree with directives := [] } := by
  have hrun := run_of_parse h
  obtain ⟨ds, hrecorded, hstarts, hwithout⟩ := run_withoutDirectives hrun
  have hds : tree.directives = ds := hrecorded
  refine ⟨hds ▸ hstarts, ?_, parse_eq_ok_of_run hwithout rfl⟩
  rw [← length_fromHashes, hds, hstarts.length_eq]

/-- The tokens of an enumeration with a definition between an enumerator and
its comma. -/
def definitionInEnum : List Token :=
  [⟨.identifier, "enum", ⟨0, 4⟩⟩, ⟨.identifier, "E", ⟨5, 6⟩⟩,
    ⟨.openBrace, "", ⟨7, 8⟩⟩, ⟨.identifier, "A", ⟨9, 10⟩⟩,
    ⟨.hash, "", ⟨11, 12⟩⟩, ⟨.identifier, "define", ⟨12, 18⟩⟩,
    ⟨.identifier, "N", ⟨19, 20⟩⟩, ⟨.endLine, "", ⟨20, 21⟩⟩,
    ⟨.comma, "", ⟨21, 22⟩⟩, ⟨.identifier, "B", ⟨23, 24⟩⟩,
    ⟨.closeBrace, "", ⟨25, 26⟩⟩]

example : (withoutDirectives definitionInEnum).map Token.kind =
    [.identifier, .identifier, .openBrace, .identifier, .endLine, .comma,
      .identifier, .closeBrace] := by
  decide

theorem parse_withoutDirectives_definitionInEnum :
    parse definitionInEnum = .ok
      ⟨#[⟨"", none, [], [], [], [], [], [⟨"E", ["A", "B"]⟩], []⟩],
        [.define "N" none]⟩ ∧
    parse (withoutDirectives definitionInEnum) = .ok
      ⟨#[⟨"", none, [], [], [], [], [], [⟨"E", ["A", "B"]⟩], []⟩], []⟩ := by
  have hrun : Assembly.start.run definitionInEnum = .ok
      ⟨⟨#[⟨"", none, [], [], [], [], [], [⟨"E", ["A", "B"]⟩], []⟩],
        [.define "N" none]⟩, ModuleTree.root, []⟩ :=
    run_eq_of_runningFor (by decide +kernel)
  have hparse := parse_eq_ok_of_run hrun rfl
  exact ⟨hparse, (parse_withoutDirectives hparse).2.2⟩

end Idl
