import Idl.Proofs.Text.Bytes
import Idl.Proofs.Token.Concatenation
import Mathlib.Data.List.DropRight

/-!
# Faults byte by byte

Whether a source can be lexed is told by an automaton that reads one byte at a
time and only remembers whether it is in code, just behind a slash there, in a
comment or in a literal.  A literal that is never closed leaves the automaton
in the literal, and a word that nothing separates from the end leaves it in
code behind the byte of a word.

The automaton steps over pieces.  Where a piece has been cut it reads on as if
it were in code (`Clear`), even in front of the line end behind a comment, so
the pieces may be taken one by one.
-/

namespace Idl

open Grammar

/-- Where the bytes read so far have led to: `slash` is just behind a slash in
code that is not the second of two. -/
inductive Scan where
  | code
  | slash
  | comment
  | literal
  deriving DecidableEq, Repr

namespace Scan

def quote : UInt8 := 34

def slashByte : UInt8 := 47

def step : Scan → UInt8 → Scan
  | code, b =>
    if b = quote then literal else if b = slashByte then slash else code
  | slash, b =>
    if b = quote then literal else if b = slashByte then comment else code
  | comment, b => if b = Position.lineFeed then code else comment
  | literal, b => if b = quote then code else literal

def run (s : Scan) (bs : List UInt8) : Scan :=
  bs.foldl step s

/-- ASCII letters, ASCII digits and the underscore. -/
def isWordByte (b : UInt8) : Bool :=
  (48 ≤ b && b ≤ 57) || (65 ≤ b && b ≤ 90) || (97 ≤ b && b ≤ 122) || b == 95

/-- The quote at the offset is read in code and opens a literal that no later
byte closes. -/
structure OpensAt (bs : List UInt8) (offset : Nat) : Prop where
  opens : bs[offset]? = some quote
  outside : run code (bs.take offset) = code ∨ run code (bs.take offset) = slash
  unclosed : ∀ n, offset < n → run code (bs.take n) = literal

/-- The last byte belongs to a word. -/
def EndsInWord (bs : List UInt8) : Prop :=
  ∃ b ∈ bs.getLast?, isWordByte b = true

/-! ## From bytes to characters -/

/-- The step of the automaton for a whole character. -/
def read : Scan → Char → Scan
  | code, c => if c = '"' then literal else if c = '/' then slash else code
  | slash, c => if c = '"' then literal else if c = '/' then comment else code
  | comment, c => if c = '\n' then code else comment
  | literal, c => if c = '"' then code else literal

def readAll (s : Scan) (cs : List Char) : Scan :=
  cs.foldl read s

section
variable {s : Scan} {b : UInt8} {bs : List UInt8} {c : Char} {cs ds : List Char}

theorem run_append (s : Scan) (as bs : List UInt8) :
    run s (as ++ bs) = run (run s as) bs :=
  List.foldl_append

theorem readAll_append (s : Scan) (cs ds : List Char) :
    readAll s (cs ++ ds) = readAll (readAll s cs) ds :=
  List.foldl_append

theorem step_of_le (h : 128 ≤ b) : step s b = step s 128 := by
  have hne : ∀ d < 128, b ≠ d := by
    rintro d hd rfl
    exact absurd h (UInt8.not_le.mpr hd)
  have hquote := hne quote (by decide)
  have hslash := hne slashByte (by decide)
  have hline := hne Position.lineFeed (by decide)
  cases s with
  | code | slash => exact (if_neg hquote).trans (if_neg hslash)
  | comment => exact if_neg hline
  | literal => exact if_neg hquote

/-- However many bytes that are not ASCII are read, they count as one. -/
theorem run_of_le (hne : bs ≠ []) (h : ∀ b ∈ bs, 128 ≤ b) :
    run s bs = step s 128 := by
  induction bs generalizing s with
  | nil => exact absurd rfl hne
  | cons b bs ih =>
      obtain ⟨hb, hbs⟩ := List.forall_mem_cons.mp h
      rw [run, List.foldl_cons, step_of_le hb]
      cases bs with
      | nil => rfl
      | cons d bs =>
          have htwice : step (step s 128) 128 = step s 128 := by
            cases s <;> rfl
          exact (ih (List.cons_ne_nil _ _) hbs).trans htwice

theorem read_of_le (h : 128 ≤ c.toNat) : read s c = step s 128 := by
  have hne : ∀ d : Char, d.toNat < 128 → c ≠ d := by
    rintro d hd rfl
    omega
  have hquote := hne '"' (by decide)
  have hslash := hne '/' (by decide)
  have hline := hne '\n' (by decide)
  cases s with
  | code | slash => exact (if_neg hquote).trans (if_neg hslash)
  | comment => exact if_neg hline
  | literal => exact if_neg hquote

theorem run_encodeChar (s : Scan) (c : Char) :
    run s (String.utf8EncodeChar c) = read s c := by
  by_cases hc : c.toNat < 128
  · have hquote : UInt8.ofNat c.toNat = quote ↔ c = '"' :=
      Text.byte_eq_iff (d := '"') hc (by decide)
    have hslash : UInt8.ofNat c.toNat = slashByte ↔ c = '/' :=
      Text.byte_eq_iff (d := '/') hc (by decide)
    have hline : UInt8.ofNat c.toNat = Position.lineFeed ↔ c = '\n' :=
      Text.byte_eq_iff (d := '\n') hc (by decide)
    rw [Text.encodeChar_of_lt hc]
    cases s <;> simp only [run, List.foldl_cons, List.foldl_nil, step, read,
      hquote, hslash, hline]
  · have hwide := Nat.not_lt.mp hc
    rw [read_of_le hwide]
    exact run_of_le (Text.encodeChar_ne_nil c) fun b hb =>
      Text.le_of_mem_encodeChar hwide hb

theorem run_flatMap (s : Scan) (cs : List Char) :
    run s (cs.flatMap String.utf8EncodeChar) = readAll s cs := by
  induction cs generalizing s with
  | nil => rfl
  | cons c cs ih =>
      rw [List.flatMap_cons, run_append, run_encodeChar, ih]
      rfl

theorem isWordByte_ofNat (h : c.toNat < 128) :
    isWordByte (UInt8.ofNat c.toNat) = isWordChar c := by
  have hall : ∀ n < 128,
      isWordByte (UInt8.ofNat n) = isWordChar (Char.ofNat n) := by
    decide
  have hc := hall c.toNat h
  rwa [Char.ofNat_toNat] at hc

theorem isWordByte_of_le (h : 128 ≤ b) : isWordByte b = false := by
  have hb : 128 ≤ b.toNat := UInt8.le_iff_toNat_le.mp h
  simp only [isWordByte, UInt8.le_iff_toNat_le, ← UInt8.toNat_inj,
    UInt8.reduceToNat, Bool.or_eq_false_iff, Bool.and_eq_false_imp,
    decide_eq_true_eq, decide_eq_false_iff_not, beq_eq_false_iff_ne, ne_eq]
  omega

/-- Every byte of a character tells whether it belongs to a word. -/
theorem isWordByte_of_mem_encodeChar (hb : b ∈ String.utf8EncodeChar c) :
    isWordByte b = isWordChar c := by
  by_cases hc : c.toNat < 128
  · rw [Text.encodeChar_of_lt hc, List.mem_singleton] at hb
    rw [hb, isWordByte_ofNat hc]
  · have hword : isWordChar c = false :=
      Bool.eq_false_iff.mpr fun hword => hc (toNat_lt_of_isWordChar hword)
    have hbyte := Text.le_of_mem_encodeChar (Nat.not_lt.mp hc) hb
    rw [isWordByte_of_le hbyte, hword]

theorem endsInWord_flatMap :
    EndsInWord (cs.flatMap String.utf8EncodeChar) ↔
      ∃ c ∈ cs.getLast?, isWordChar c = true := by
  rcases List.eq_nil_or_concat' cs with rfl | ⟨cs, c, rfl⟩
  · simp [EndsInWord]
  · have hne := Text.encodeChar_ne_nil c
    have hlast := isWordByte_of_mem_encodeChar (List.getLast_mem hne)
    simp [EndsInWord, List.getLast?_append, List.getLast?_eq_some_getLast hne,
      hlast]

theorem rdropWhile_isWordByte {front run : List UInt8}
    (hrun : ∀ b ∈ run, isWordByte b = true) (hfront : ¬ EndsInWord front) :
    (front ++ run).rdropWhile isWordByte = front := by
  induction run using List.reverseRecOn with
  | nil =>
      rw [List.append_nil, List.rdropWhile_eq_self_iff]
      exact fun hne hlast => hfront ⟨_, List.getLast_mem_getLast? hne, hlast⟩
  | append_singleton run b ih =>
      have hb := hrun b (by simp)
      rw [← List.append_assoc, List.rdropWhile_concat_pos _ _ _ hb]
      exact ih fun d hd => hrun d (by simp [hd])

/-! ## The automaton on pieces -/

/-- In front of the text the automaton reads on as if it were in code. -/
def Clear : Scan → List Char → Prop
  | code, _ => True
  | slash, cs => NotAhead (· == '/') cs
  | comment, cs => NotAhead (· != '\n') cs
  | literal, _ => False

theorem Clear.read_eq (h : Clear s (c :: cs)) : read s c = read code c := by
  cases s with
  | code => rfl
  | slash =>
      have hc : c ≠ '/' := by simpa [Clear, NotAhead] using h
      simp [read, hc]
  | comment =>
      have hc : c = '\n' := by simpa [Clear, NotAhead] using h
      subst hc
      rfl
  | literal => exact h.elim

theorem Clear.readAll_eq (h : Clear s ds) (hpre : cs <+: ds)
    (hne : cs ≠ []) : readAll s cs = readAll code cs := by
  obtain ⟨tail, rfl⟩ := hpre
  cases cs with
  | nil => exact absurd rfl hne
  | cons c cs =>
      rw [readAll, List.foldl_cons, Clear.read_eq h]
      rfl

theorem readAll_eq_self (h : ∀ c ∈ cs, read s c = s) : readAll s cs = s := by
  induction cs with
  | nil => rfl
  | cons c cs ih =>
      obtain ⟨hc, hcs⟩ := List.forall_mem_cons.mp h
      rw [readAll, List.foldl_cons, hc]
      exact ih hcs

theorem readAll_literal {body : List Char} (h : '"' ∉ body) :
    readAll code ('"' :: body) = literal := by
  have hopen : readAll code ('"' :: body) = readAll literal body := rfl
  rw [hopen]
  refine readAll_eq_self fun c hc => if_neg ?_
  rintro rfl
  exact h hc

theorem readAll_comment {body : List Char} (h : '\n' ∉ body) :
    readAll code ('/' :: '/' :: body) = comment := by
  have hopen : readAll code ('/' :: '/' :: body) = readAll comment body := rfl
  rw [hopen]
  refine readAll_eq_self fun c hc => if_neg ?_
  rintro rfl
  exact h hc

theorem readAll_code {q : Char → Bool} (hquote : q '"' = false)
    (hslash : q '/' = false) (h : ∀ c ∈ cs, q c = true) :
    readAll code cs = code := by
  refine readAll_eq_self fun c hc => ?_
  have hclass := h c hc
  have hcquote : c ≠ '"' := by
    rintro rfl
    exact Bool.false_ne_true (hquote.symm.trans hclass)
  have hcslash : c ≠ '/' := by
    rintro rfl
    exact Bool.false_ne_true (hslash.symm.trans hclass)
  exact (if_neg hcquote).trans (if_neg hcslash)

/-- Behind a piece that is not at fault the automaton may start afresh. -/
theorem clear_of_fits {p : Piece} {rest : List Char} (h : p.Fits rest)
    (hfault : p.fault? (pieces rest) = none) :
    Clear (readAll code p.spelling) rest := by
  cases h with
  | @blank run _ h =>
      cases h with
      | blank hne hrun =>
          rw [Piece.spelling, readAll_code rfl rfl hrun]
          trivial
  | @comment body _ h hrest =>
      cases h with
      | comment hbody =>
          rw [Piece.spelling, readAll_comment hbody]
          exact hrest
  | @word letters _ h =>
      cases h with
      | word hne hletters =>
          rw [Piece.spelling, readAll_code rfl rfl hletters]
          trivial
  | @literal body _ h =>
      cases h with
      | literal hbody =>
          rw [Piece.spelling, ← List.cons_append, readAll_append,
            readAll_literal hbody]
          trivial
  | openLiteral => cases hfault
  | @mark kind _ h =>
      have hcode : readAll code kind.mark = code := by cases kind <;> rfl
      rw [Piece.spelling, hcode]
      trivial
  | @stray c _ hc hblank hslash =>
      have hquote : c ≠ '"' := fun h => hc (.inr (.inl h))
      have hread : readAll code [c] = if c = '/' then slash else code :=
        if_neg hquote
      rw [Piece.spelling, hread]
      split
      next h => exact hslash h
      next => trivial

/-! ## What becomes of a text -/

/-- What the automaton says of a text that starts at an offset and the result
of lexing it there. -/
inductive Judged (offset : Nat) (cs : List Char) :
    Except LexError (List Token) → Prop where
  | unclosed {front body : List Char} (hcs : cs = front ++ '"' :: body)
      (houtside : readAll code front = code ∨ readAll code front = slash)
      (hbody : '"' ∉ body) :
      Judged offset cs (.error ⟨.unclosedLiteral,
        .ofRange (offset + Text.byteLength front)
          (offset + Text.byteLength cs)⟩)
  | unfinished {front letters : List Char} (hcs : cs = front ++ letters)
      (hne : letters ≠ []) (hletters : ∀ c ∈ letters, isWordChar c = true)
      (hfront : ∀ c ∈ front.getLast?, isWordChar c = false)
      (hcode : readAll code cs = code) :
      Judged offset cs (.error ⟨.unfinishedWord,
        .ofRange (offset + Text.byteLength front)
          (offset + Text.byteLength cs)⟩)
  | fine {ts : List Token} (hclosed : readAll code cs ≠ literal)
      (hlast : readAll code cs = code →
        ∀ c ∈ cs.getLast?, isWordChar c = false) :
      Judged offset cs (.ok ts)

section
variable {offset : Nat} {p : Piece} {rest : List Char}
  {r : Except LexError (List Token)}

/-- A piece whose last character belongs to a word ends where no word goes on,
and at the very end it is at fault or leaves the automaton out of code. -/
theorem last_of_fits (h : p.Fits rest) :
    (∀ c ∈ p.spelling.getLast?, isWordChar c = false) ∨
      (NotAhead isWordChar rest ∧
        (readAll code p.spelling = code → p.fault? [] ≠ none)) := by
  cases h with
  | @blank run _ h =>
      cases h with
      | blank hne hrun =>
          exact .inl fun c hc =>
            isWordChar_of_isBlank (hrun c (List.mem_of_getLast? hc))
  | comment h hrest =>
      cases h with
      | comment hbody =>
          refine .inr ⟨fun c hc => ?_, fun hcode => ?_⟩
          · obtain rfl : c = '\n' := by simpa using hrest c hc
            rfl
          · rw [Piece.spelling, readAll_comment hbody] at hcode
            cases hcode
  | word h hrest => exact .inr ⟨hrest, fun _ => by simp [Piece.fault?]⟩
  | @literal body _ h =>
      refine .inl fun c hc => ?_
      rw [Piece.spelling, ← List.cons_append, List.getLast?_concat] at hc
      cases hc
      rfl
  | openLiteral =>
      exact .inr ⟨by simp [NotAhead], fun _ => by simp [Piece.fault?]⟩
  | mark h =>
      exact .inl fun c hc => isWordChar_of_mem_mark (List.mem_of_getLast? hc)
  | stray hc =>
      refine .inl fun d hd => ?_
      cases hd
      exact Bool.eq_false_iff.mpr fun hword => hc (.inl hword)

/-- A piece that is not at fault changes nothing about what is behind it. -/
theorem Judged.behind (hfits : p.Fits rest)
    (hfault : p.fault? (pieces rest) = none)
    (h : Judged (offset + Text.byteLength p.spelling) rest r)
    (f : List Token → List Token) :
    Judged offset (p.spelling ++ rest) (r.map f) := by
  have hclear := clear_of_fits hfits hfault
  have hread : ∀ {front}, front <+: rest → front ≠ [] →
      readAll code (p.spelling ++ front) = readAll code front := by
    intro front hpre hne
    rw [readAll_append, hclear.readAll_eq hpre hne]
  cases h with
  | @unclosed front body hcs houtside hbody =>
      rw [Nat.add_assoc, Nat.add_assoc, ← Text.byteLength_append,
        ← Text.byteLength_append]
      refine .unclosed (by rw [hcs, List.append_assoc]) ?_ hbody
      -- With nothing in front of the quote the state is that behind the piece,
      -- which may be a slash; a comment would have gone on over the quote.
      by_cases hnil : front = []
      · subst hnil
        rw [hcs] at hclear
        rw [List.append_nil]
        generalize readAll code p.spelling = s at hclear
        cases s with
        | code => exact .inl rfl
        | slash => exact .inr rfl
        | comment => exact absurd (hclear '"' rfl) (by decide)
        | literal => exact hclear.elim
      · rwa [hread (hcs ▸ List.prefix_append _ _) hnil]
  | @unfinished front letters hcs hne hletters hfront hcode =>
      have hrest : rest ≠ [] := by simp [hcs, hne]
      rw [Nat.add_assoc, Nat.add_assoc, ← Text.byteLength_append,
        ← Text.byteLength_append]
      refine .unfinished (by rw [hcs, List.append_assoc]) hne hletters ?_
        (by rwa [hread List.prefix_rfl hrest])
      intro c hc
      by_cases hnil : front = []
      · subst hnil
        rw [List.append_nil] at hc
        rcases last_of_fits hfits with hlast | ⟨hahead, -⟩
        · exact hlast c hc
        · obtain ⟨d, letters, rfl⟩ := List.exists_cons_of_ne_nil hne
          have hd := hahead d (by rw [hcs]; rfl)
          rw [hletters d List.mem_cons_self] at hd
          cases hd
      · rw [List.getLast?_append_of_ne_nil _ hnil] at hc
        exact hfront c hc
  | fine hclosed hlast =>
      by_cases hnil : rest = []
      · subst hnil
        rw [List.append_nil]
        refine .fine (fun hopen => ?_) fun hcode => ?_
        · rw [hopen] at hclear
          exact hclear
        · rcases last_of_fits hfits with hpiece | ⟨-, hpiece⟩
          · exact hpiece
          · rw [pieces_nil] at hfault
            exact absurd hfault (hpiece hcode)
      · refine .fine ?_ ?_
        · rwa [hread List.prefix_rfl hnil]
        · rwa [hread List.prefix_rfl hnil,
            List.getLast?_append_of_ne_nil _ hnil]

/-- A piece at fault is the last one. -/
theorem Judged.fault {fault : LexFault} (hfits : p.Fits rest)
    (hfault : p.fault? (pieces rest) = some fault) :
    Judged offset (p.spelling ++ rest) (.error ⟨fault, p.spanAt offset⟩) := by
  cases hfits with
  | @word letters _ h =>
      have hrest : rest = [] := by
        cases rest with
        | nil => rfl
        | cons c rest => simp [Piece.fault?, pieces_cons] at hfault
      subst hrest
      have hword : some LexFault.unfinishedWord = some fault := by
        simpa [Piece.fault?] using hfault
      cases h with
      | word hne hletters =>
          cases hword
          rw [List.append_nil]
          exact .unfinished (List.nil_append _).symm hne hletters (by simp)
            (readAll_code rfl rfl hletters)
  | @openLiteral body h =>
      cases h with
      | openLiteral hbody =>
          cases hfault
          rw [List.append_nil]
          exact .unclosed (List.nil_append _).symm (.inl rfl) hbody
  | blank | comment | literal | mark | stray => cases hfault

theorem judged_tokensFrom (offset : Nat) (cs : List Char) :
    Judged offset cs (tokensFrom [] offset (pieces cs)) := by
  induction hlength : cs.length using Nat.strongRecOn
    generalizing offset cs with
  | ind n ih =>
      rcases text_cases cs with rfl | ⟨p, rest, rfl, hfits, hlt⟩
      · rw [pieces_nil]
        exact .fine nofun fun _ => nofun
      · rw [hfits.pieces_append, tokensFrom_cons]
        cases hfault : p.fault? (pieces rest) with
        | some fault => exact .fault hfits hfault
        | none =>
            have hrest := ih rest.length (hlength ▸ hlt)
              (offset + Text.byteLength p.spelling) rest rfl
            exact hrest.behind hfits hfault _

end

/-! ## What becomes of a source -/

section
variable {source : String} {as : List UInt8} {body : List Char}

theorem run_literal (h : quote ∉ bs) : run literal bs = literal := by
  induction bs with
  | nil => rfl
  | cons b bs ih =>
      obtain ⟨hb, hbs⟩ := List.ne_and_not_mem_of_not_mem_cons h
      have hstep : step literal b = literal := if_neg hb.symm
      rw [run, List.foldl_cons, hstep]
      exact ih hbs

theorem opensAt_append (houtside : run code as = code ∨ run code as = slash)
    (h : quote ∉ bs) : OpensAt (as ++ quote :: bs) as.length where
  opens := by simp
  outside := by rwa [List.take_left]
  unclosed n hn := by
    obtain ⟨k, rfl⟩ : ∃ k, n = as.length + (k + 1) :=
      ⟨n - as.length - 1, by omega⟩
    have hstep : step (run code as) quote = literal := by
      rcases houtside with hcode | hslash
      · rw [hcode]
        rfl
      · rw [hslash]
        rfl
    rw [List.take_length_add_append, List.take_succ_cons, run_append, run,
      List.foldl_cons, hstep]
    exact run_literal fun hmem => h (List.mem_of_mem_take hmem)

theorem quote_notMem (h : '"' ∉ body) :
    quote ∉ body.flatMap String.utf8EncodeChar := by
  intro hmem
  obtain ⟨c, hc, hquote⟩ := List.mem_flatMap.mp hmem
  by_cases hascii : c.toNat < 128
  · rw [Text.encodeChar_of_lt hascii, List.mem_singleton] at hquote
    obtain rfl := (Text.byte_eq_iff (c := '"') (by decide) hascii).mp hquote
    exact h hc
  · have hle := Text.le_of_mem_encodeChar (Nat.not_lt.mp hascii) hquote
    exact absurd hle (by decide)

theorem OpensAt.run_eq {offset : Nat} (h : OpensAt bs offset) :
    run code bs = literal := by
  have hwhole := h.unclosed (offset + 1 + bs.length) (by omega)
  rwa [List.take_of_length_le (by omega)] at hwhole

/-- The three ways in which lexing a source can end. -/
theorem lex_cases (hsize : Text.byteLength source.toList ≤ maxOffset) :
    (∃ offset, OpensAt (Text.bytes source) offset ∧
      lex source = .error
        ⟨.unclosedLiteral, ⟨offset, (Text.bytes source).length⟩⟩) ∨
    (run code (Text.bytes source) = code ∧ EndsInWord (Text.bytes source) ∧
      lex source = .error ⟨.unfinishedWord,
        ⟨((Text.bytes source).rdropWhile isWordByte).length,
          (Text.bytes source).length⟩⟩) ∨
    (run code (Text.bytes source) ≠ literal ∧
      ¬ (run code (Text.bytes source) = code ∧
        EndsInWord (Text.bytes source)) ∧
      ∃ ts, lex source = .ok ts) := by
  have hjudged : Judged 0 source.toList (lex source) := judged_tokensFrom 0 _
  simp only [Text.bytes]
  generalize source.toList = cs at *
  generalize lex source = r at *
  cases hjudged with
  | @unclosed front body hcs houtside hbody =>
      have hbytes : cs.flatMap String.utf8EncodeChar =
          front.flatMap String.utf8EncodeChar ++
            quote :: body.flatMap String.utf8EncodeChar := by
        rw [hcs, List.flatMap_append]
        rfl
      have hfront : Text.byteLength front ≤ Text.byteLength cs := by
        rw [hcs, Text.byteLength_append]
        omega
      rw [← run_flatMap] at houtside
      have hopens := opensAt_append houtside (quote_notMem hbody)
      refine .inl ⟨_, hbytes ▸ hopens, ?_⟩
      rw [Nat.zero_add, Nat.zero_add, Span.ofRange_of_le hfront hsize,
        Text.length_flatMap_encodeChar, Text.length_flatMap_encodeChar]
  | @unfinished front letters hcs hne hletters hfront hcode =>
      have hbytes : (cs.flatMap String.utf8EncodeChar).rdropWhile isWordByte =
          front.flatMap String.utf8EncodeChar := by
        rw [hcs, List.flatMap_append]
        refine rdropWhile_isWordByte (fun b hb => ?_) fun hends => ?_
        · obtain ⟨c, hc, hb⟩ := List.mem_flatMap.mp hb
          rw [isWordByte_of_mem_encodeChar hb, hletters c hc]
        · obtain ⟨c, hc, hword⟩ := endsInWord_flatMap.mp hends
          rw [hfront c hc] at hword
          cases hword
      have hends : EndsInWord (cs.flatMap String.utf8EncodeChar) := by
        refine endsInWord_flatMap.mpr ⟨letters.getLast hne, ?_,
          hletters _ (List.getLast_mem hne)⟩
        rw [hcs, List.getLast?_append_of_ne_nil _ hne]
        exact List.getLast_mem_getLast? hne
      have hfront : Text.byteLength front ≤ Text.byteLength cs := by
        rw [hcs, Text.byteLength_append]
        omega
      refine .inr (.inl ⟨by rwa [run_flatMap], hends, ?_⟩)
      rw [hbytes, Nat.zero_add, Nat.zero_add, Span.ofRange_of_le hfront hsize,
        Text.length_flatMap_encodeChar, Text.length_flatMap_encodeChar]
  | @fine ts hclosed hlast =>
      rw [run_flatMap, endsInWord_flatMap]
      refine .inr (.inr ⟨hclosed, ?_, ts, rfl⟩)
      rintro ⟨hcode, c, hc, hword⟩
      rw [hlast hcode c hc] at hword
      cases hword

/-- Lexing fails in a literal exactly if the automaton ends there, and in a
word exactly if it ends in code behind the byte of a word. -/
theorem lex_automaton (hsize : Text.byteLength source.toList ≤ maxOffset) :
    ((∃ span, lex source = .error ⟨.unclosedLiteral, span⟩) ↔
      run code (Text.bytes source) = literal) ∧
    (∀ span, lex source = .error ⟨.unclosedLiteral, span⟩ →
      OpensAt (Text.bytes source) span.start ∧
        span.stop = (Text.bytes source).length) ∧
    ((∃ span, lex source = .error ⟨.unfinishedWord, span⟩) ↔
      run code (Text.bytes source) = code ∧
        EndsInWord (Text.bytes source)) ∧
    (∀ span, lex source = .error ⟨.unfinishedWord, span⟩ →
      span = ⟨((Text.bytes source).rdropWhile isWordByte).length,
        (Text.bytes source).length⟩) ∧
    ((∃ ts, lex source = .ok ts) ↔
      run code (Text.bytes source) ≠ literal ∧
        ¬ (run code (Text.bytes source) = code ∧
          EndsInWord (Text.bytes source))) := by
  rcases lex_cases hsize with ⟨offset, hopens, hlex⟩ | ⟨hcode, hends, hlex⟩ |
    ⟨hclosed, hlast, ts, hlex⟩
  · have hrun := hopens.run_eq
    simp [hlex, hrun, hopens]
  · simp [hlex, hcode, hends]
  · simp [hlex, hclosed, hlast]

/-- The comment ends with its line and its quote opens nothing; the slash in
front of the second quote does not make one either. -/
theorem lex_automaton_slashBeforeQuote :
    Text.byteLength "é// \"\n/\"b/".toList ≤ maxOffset ∧
      run code (Text.bytes "é// \"\n/\"b/") = literal ∧
      ∃ span, lex "é// \"\n/\"b/" = .error ⟨.unclosedLiteral, span⟩ ∧
        span.stop = (Text.bytes "é// \"\n/\"b/").length := by
  have hsize : Text.byteLength "é// \"\n/\"b/".toList ≤ maxOffset := by
    decide
  have hrun : run code (Text.bytes "é// \"\n/\"b/") = literal := by
    decide
  obtain ⟨hunclosed, hspan, -⟩ := lex_automaton hsize
  obtain ⟨span, hlex⟩ := hunclosed.mpr hrun
  exact ⟨hsize, hrun, span, hlex, (hspan span hlex).2⟩

end

end

end Scan

end Idl
