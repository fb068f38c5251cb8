import Idl.Proofs.Assembly.Directives

/-!
# Definitions

A definition is spelled by a number sign, the word `define`, a name and perhaps
a value.  The value is taken from the line of the name only, but behind the
number sign and behind the word line ends are passed over.  So a definition
keeps to one line exactly if the line of its number sign reaches its name.
-/

namespace Idl

open Grammar

/-! ## Lines of tokens -/

/-- What is left of the line a stream starts in. -/
def lineFrom (ts : List Token) : List Token :=
  ts.takeWhile fun t => t.kind != .endLine

theorem lineFrom_cons {t : Token} (ht : t.kind ≠ .endLine) (ts : List Token) :
    lineFrom (t :: ts) = t :: lineFrom ts := by
  simp [lineFrom, ht]

/-- Where line ends stand in front, the line is over. -/
theorem lineFrom_lineEnds {ls : List Token} (hls : LineEnds ls) (hne : ls ≠ [])
    (ts : List Token) : lineFrom (ls ++ ts) = [] := by
  cases ls with
  | nil => exact absurd rfl hne
  | cons l ls => simp [lineFrom, hls l (by simp)]

/-- Line ends in front of another token can be told from it. -/
theorem lineEnds_append_inj {ls ms ts us : List Token} {t u : Token}
    (hls : LineEnds ls) (hms : LineEnds ms) (ht : t.kind ≠ .endLine)
    (hu : u.kind ≠ .endLine) (h : ls ++ t :: ts = ms ++ u :: us) :
    ls = ms ∧ t = u ∧ ts = us := by
  have hskip := congrArg skipLines h
  rw [skipLines_lineEnds_append hls, skipLines_lineEnds_append hms,
    settled_cons.mpr ht, settled_cons.mpr hu] at hskip
  rw [hskip] at h
  obtain ⟨rfl, rfl⟩ := List.cons.inj hskip
  exact ⟨List.append_cancel_right h, rfl, rfl⟩

/-! ## The tokens of a definition -/

/-- The tokens a definition is built from, and the line ends between them. -/
@[ext]
structure Definition where
  hash : Token
  behindHash : List Token
  word : Token
  behindWord : List Token
  name : Token
  value : Option Token
  hash_kind : hash.kind = .hash
  lineEnds_behindHash : LineEnds behindHash
  word_isWord : word.isWord "define"
  lineEnds_behindWord : LineEnds behindWord
  name_kind : name.kind = .identifier
  value_kind : ∀ v ∈ value, v.kind = .identifier

namespace Definition

variable {p q : Definition}

def tokens (p : Definition) : List Token :=
  p.hash :: (p.behindHash ++
    p.word :: (p.behindWord ++ p.name :: p.value.toList))

def directive (p : Definition) : Directive :=
  .define p.name.text (p.value.map Token.text)

/-- The stream starts with the definition, and where that has no value, no word
follows its name on the line. -/
def Heads (p : Definition) (ts : List Token) : Prop :=
  ∃ rest, ts = p.tokens ++ rest ∧
    (p.value = none → ∀ t ∈ rest.head?, t.kind ≠ .identifier)

def OnOneLine (p : Definition) : Prop := ∀ t ∈ p.tokens, t.kind ≠ .endLine

theorem word_kind (p : Definition) : p.word.kind = .identifier := by
  have h := p.word_isWord
  simp only [Token.isWord, Bool.and_eq_true, beq_iff_eq] at h
  exact h.1

theorem tokens_append (p : Definition) (rest : List Token) :
    p.tokens ++ rest = p.hash :: (p.behindHash ++
      p.word :: (p.behindWord ++ p.name :: (p.value.toList ++ rest))) := by
  simp [tokens]

theorem onOneLine_iff :
    p.OnOneLine ↔ p.behindHash = [] ∧ p.behindWord = [] := by
  constructor
  · intro h
    have hnone : ∀ {ls : List Token}, LineEnds ls → (∀ l ∈ ls, l ∈ p.tokens) →
        ls = [] := fun hls hmem =>
      List.eq_nil_iff_forall_not_mem.mpr fun l hl => h l (hmem l hl) (hls l hl)
    exact ⟨hnone p.lineEnds_behindHash fun l hl => by simp [tokens, hl],
      hnone p.lineEnds_behindWord fun l hl => by simp [tokens, hl]⟩
  · rintro ⟨hhash, hword⟩ t ht hkind
    rw [tokens, hhash, hword, List.nil_append, List.nil_append] at ht
    simp only [List.mem_cons, Option.mem_toList] at ht
    obtain rfl | rfl | rfl | hv := ht
    · simp [p.hash_kind] at hkind
    · simp [p.word_kind] at hkind
    · simp [p.name_kind] at hkind
    · simp [p.value_kind t hv] at hkind

/-- The value is the next token, if that is a word. -/
theorem value_eq_next (p : Definition) {rest : List Token}
    (hnone : p.value = none → ∀ t ∈ rest.head?, t.kind ≠ .identifier) :
    p.value = (p.value.toList ++ rest).head?.filter
      fun t => t.kind == .identifier := by
  cases hv : p.value with
  | none =>
      have hnext := hnone hv
      cases rest with
      | nil => rfl
      | cons t rest => simp [Option.filter, hnext t rfl]
  | some v => simp [Option.filter, p.value_kind v hv]

/-- A stream starts with one definition at most. -/
theorem Heads.unique {ts : List Token} (hp : p.Heads ts) (hq : q.Heads ts) :
    p = q := by
  obtain ⟨rest, rfl, hnone⟩ := hp
  obtain ⟨rest', heq, hnone'⟩ := hq
  rw [tokens_append, tokens_append] at heq
  obtain ⟨hhash, heq⟩ := List.cons.inj heq
  obtain ⟨hbehindHash, hword, heq⟩ :=
    lineEnds_append_inj p.lineEnds_behindHash q.lineEnds_behindHash
      (by simp [word_kind]) (by simp [word_kind]) heq
  obtain ⟨hbehindWord, hname, heq⟩ :=
    lineEnds_append_inj p.lineEnds_behindWord q.lineEnds_behindWord
      (by simp [name_kind]) (by simp [name_kind]) heq
  have hvalue : p.value = q.value := by
    rw [p.value_eq_next hnone, heq, ← q.value_eq_next hnone']
  exact Definition.ext hhash hbehindHash hword hbehindWord hname hvalue

/-- The line of the number sign reaches the name if no line end is passed. -/
theorem Heads.onOneLine_iff {ts : List Token} (h : p.Heads ts) :
    p.OnOneLine ↔ 3 ≤ (lineFrom ts).length := by
  obtain ⟨rest, rfl, -⟩ := h
  rw [Definition.onOneLine_iff, tokens_append,
    lineFrom_cons (by simp [p.hash_kind])]
  by_cases hhash : p.behindHash = []
  · rw [hhash, List.nil_append, lineFrom_cons (by simp [p.word_kind])]
    by_cases hword : p.behindWord = []
    · rw [hword, List.nil_append, lineFrom_cons (by simp [p.name_kind])]
      simp
    · simp [hword, lineFrom_lineEnds p.lineEnds_behindWord hword]
  · simp [hhash, lineFrom_lineEnds p.lineEnds_behindHash hhash]

end Definition

theorem exists_definition_of_directed {name : String} {value : Option String}
    {ts rest : List Token} (h : Directed (.define name value) ts rest) :
    ∃ p : Definition, p.Heads ts ∧ p.directive = .define name value := by
  cases h with
  | @define n _ _ _ hhash hword hname hnone =>
      obtain ⟨_, @⟨hash, ls, _, hhash, -, hls⟩⟩ := hhash
      obtain @⟨word, ms, _, hkind, htext, hms⟩ := hword
      exact ⟨⟨hash, ls, word, ms, n, none, hhash, hls,
          by simp [Token.isWord, hkind, htext], hms, hname, by simp⟩,
        ⟨rest, by simp [Definition.tokens], fun _ => hnone⟩, rfl⟩
  | @defineValue n v _ _ _ hhash hword hname hvalue =>
      obtain ⟨_, @⟨hash, ls, _, hhash, -, hls⟩⟩ := hhash
      obtain @⟨word, ms, _, hkind, htext, hms⟩ := hword
      exact ⟨⟨hash, ls, word, ms, n, some v, hhash, hls,
          by simp [Token.isWord, hkind, htext], hms, hname,
          by simp [hvalue]⟩,
        ⟨rest, by simp [Definition.tokens], by simp⟩, rfl⟩

/-! ## The definitions of a source -/

/-- Every definition a source records is built from the tokens at its number
sign, where its value follows its name at once.  It keeps to the line of the
number sign exactly if that line reaches the name. -/
theorem definitions_onOneLine_iff {ts : List Token} {tree : ModuleTree}
    (h : parse ts = .ok tree) :
    List.Forall₂ (fun d us => ∀ name value, d = .define name value →
      ∃ p : Definition, p.Heads us ∧ p.directive = d ∧
        (∀ q : Definition, q.Heads us → q = p) ∧
        (p.OnOneLine ↔ 3 ≤ (lineFrom us).length))
      tree.directives (fromHashes ts) := by
  obtain ⟨ds, hrecorded, hstarts, -⟩ := run_withoutDirectives (run_of_parse h)
  have hds : tree.directives = ds := hrecorded
  rw [hds]
  -- What a directive spells depends on the stream from its number sign only.
  refine hstarts.imp fun d us hdirected name value hd => ?_
  obtain ⟨rest, hdirected⟩ := hdirected
  rw [hd] at hdirected
  obtain ⟨p, hp, hbuilt⟩ := exists_definition_of_directed hdirected
  exact ⟨p, hp, hbuilt.trans hd.symm, fun q hq => hq.unique hp,
    hp.onOneLine_iff⟩

/-- The tokens of two definitions, of which the second one takes up three
lines. -/
def definitionsAcrossLines : List Token :=
  [⟨.hash, "", ⟨0, 1⟩⟩, ⟨.identifier, "define", ⟨1, 7⟩⟩,
    ⟨.identifier, "A", ⟨8, 9⟩⟩, ⟨.identifier, "1", ⟨10, 11⟩⟩,
    ⟨.endLine, "", ⟨11, 12⟩⟩, ⟨.hash, "", ⟨12, 13⟩⟩,
    ⟨.endLine, "", ⟨13, 14⟩⟩, ⟨.identifier, "define", ⟨14, 20⟩⟩,
    ⟨.endLine, "", ⟨20, 21⟩⟩, ⟨.identifier, "B", ⟨21, 22⟩⟩,
    ⟨.endLine, "", ⟨22, 23⟩⟩]

theorem definitions_onOneLine_iff_acrossLines :
    parse definitionsAcrossLines = .ok
      ⟨#[⟨"", none, [], [], [], [], [], [], []⟩],
        [.define "A" (some "1"), .define "B" none]⟩ ∧
    (∃ p : Definition, p.Heads definitionsAcrossLines ∧
      p.directive = .define "A" (some "1") ∧ p.OnOneLine) ∧
    ∃ p : Definition, p.Heads (definitionsAcrossLines.drop 5) ∧
      p.directive = .define "B" none ∧ ¬ p.OnOneLine := by
  have hrun : Assembly.start.run definitionsAcrossLines = .ok
      ⟨⟨#[⟨"", none, [], [], [], [], [], [], []⟩],
        [.define "A" (some "1"), .define "B" none]⟩, ModuleTree.root, []⟩ :=
    run_eq_of_runningFor (by decide +kernel)
  have hparse := parse_eq_ok_of_run hrun rfl
  have hstarts : fromHashes definitionsAcrossLines =
      [definitionsAcrossLines, definitionsAcrossLines.drop 5] := by decide
  have hall := definitions_onOneLine_iff hparse
  rw [hstarts] at hall
  obtain ⟨hfirst, hmore⟩ := List.forall₂_cons.mp hall
  obtain ⟨hsecond, -⟩ := List.forall₂_cons.mp hmore
  obtain ⟨p, hp, hdirective, -, hline⟩ := hfirst "A" (some "1") rfl
  obtain ⟨q, hq, hdirective', -, hline'⟩ := hsecond "B" none rfl
  exact ⟨hparse, ⟨p, hp, hdirective, hline.mpr (by decide)⟩,
    q, hq, hdirective', fun hone => absurd (hline'.mp hone) (by decide)⟩

/-- A definition with its name on the line below. -/
def nameBelow : Definition where
  hash := ⟨.hash, "", ⟨0, 1⟩⟩
  behindHash := []
  word := ⟨.identifier, "define", ⟨1, 7⟩⟩
  behindWord := [⟨.endLine, "", ⟨7, 8⟩⟩]
  name := ⟨.identifier, "GUARD", ⟨8, 13⟩⟩
  value := none
  hash_kind := rfl
  lineEnds_behindHash := by simp [LineEnds]
  word_isWord := by decide
  lineEnds_behindWord := by simp [LineEnds]
  name_kind := rfl
  value_kind := by simp

def definitionBelow : List Token :=
  nameBelow.tokens ++ [⟨.endLine, "", ⟨13, 14⟩⟩]

theorem definition_notOnOneLine_nameBelow :
    parse definitionBelow = .ok
      ⟨#[⟨"", none, [], [], [], [], [], [], []⟩], [nameBelow.directive]⟩ ∧
    fromHashes definitionBelow = [definitionBelow] ∧
    nameBelow.Heads definitionBelow ∧ ¬ nameBelow.OnOneLine := by
  have hrun : Assembly.start.run definitionBelow = .ok
      ⟨⟨#[⟨"", none, [], [], [], [], [], [], []⟩], [.define "GUARD" none]⟩,
        ModuleTree.root, []⟩ :=
    run_eq_of_runningFor (by decide +kernel)
  refine ⟨parse_eq_ok_of_run hrun rfl, by decide,
    ⟨[⟨.endLine, "", ⟨13, 14⟩⟩], rfl, by simp⟩, ?_⟩
  rw [Definition.onOneLine_iff]
  rintro ⟨-, hword⟩
  cases hword

end Idl
