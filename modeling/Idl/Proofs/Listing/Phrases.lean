import Idl.Proofs.Grammar.Types
import Idl.Proofs.Grammar.Members
import Idl.Proofs.Rendering.Types

/-!
# Phrases that are read in one way

The entries of a listing are built from the phrases of a source, in an order
of their own: the arguments of a type stand behind its whole name, and its size
stands with the type.  Such an entry tells what it was written from because all
its phrases do.  Two phrases coincide in a fact if the fact holds wherever both
stand in front of the same tokens, and if they leave the same there.
-/

namespace Idl.Grammar

/-- Wherever both phrases stand in front of the same tokens the fact holds, and
they leave the same tokens.  Line ends in front do not count. -/
def Coincide (p q : Phrase) (fact : Prop) : Prop :=
  ∀ a b c d, p a c → q b d → skipLines a = skipLines b →
    fact ∧ skipLines c = skipLines d

/-- A phrase and another one behind it. -/
def Then (p q : Phrase) : Phrase := fun a c => ∃ b, p a b ∧ q b c

/-- The phrase of no tokens, where another token comes next. -/
def Absent (kind : TokenKind) : Phrase := fun a b => a = b ∧ ¬ Ahead kind a

section
variable {p q p' q' : Phrase} {fact other : Prop} {kind : TokenKind}

theorem Coincide.imp (h : Coincide p q fact) (himp : fact → other) :
    Coincide p q other := by
  intro a b c d hp hq hsame
  have hboth := h a b c d hp hq hsame
  exact ⟨himp hboth.1, hboth.2⟩

theorem Coincide.symm (h : Coincide p q fact) : Coincide q p fact := by
  intro a b c d hq hp hsame
  have hboth := h b a d c hp hq hsame.symm
  exact ⟨hboth.1, hboth.2.symm⟩

/-- What the first phrases coincide in can be used for those behind them. -/
theorem Coincide.seq (hfirst : Coincide p q fact)
    (hmore : fact → Coincide p' q' other) :
    Coincide (Then p p') (Then q q') (fact ∧ other) := by
  intro a b c d hp hq hsame
  rcases hp with ⟨mid, hp, hp'⟩
  rcases hq with ⟨mid', hq, hq'⟩
  have hboth := hfirst a b mid mid' hp hq hsame
  have hrest := hmore hboth.1 mid mid' c d hp' hq' hboth.2
  exact ⟨⟨hboth.1, hrest.1⟩, hrest.2⟩

theorem Reads.coincide {α : Type} {r : Reading α} {phrase : α → Phrase}
    (h : Reads r phrase) (x y : α) :
    Coincide (phrase x) (phrase y) (x = y) := by
  intro a b c d hx hy hsame
  have hread := h.complete hx
  rw [hsame, h.complete hy] at hread
  have hpair := Prod.mk.inj (Except.ok.inj hread)
  exact ⟨hpair.1.symm, hpair.2.symm⟩

theorem coincide_mark (hline : kind ≠ .endLine) :
    Coincide (Mark kind) (Mark kind) True :=
  ((reads_expect hline .directive).coincide () ()).imp fun _ => trivial

theorem Coincide.behindMark (h : Coincide p q fact) (kind : TokenKind)
    (hline : kind ≠ .endLine) :
    Coincide (Then (Mark kind) p) (Then (Mark kind) q) fact :=
  ((coincide_mark hline).seq fun _ => h).imp And.right

theorem coincide_word (v w : String) : Coincide (Word v) (Word w) (v = w) :=
  (reads_word .directive).coincide v w

theorem coincide_absent : Coincide (Absent kind) (Absent kind) True := by
  intro a b c d hp hq hsame
  rcases hp with ⟨rfl, -⟩
  rcases hq with ⟨rfl, -⟩
  exact ⟨trivial, hsame⟩

/-! ## Phrases that never stand in front of the same tokens -/

theorem Ahead.of_skipLines {a b : List Token} (h : Ahead kind a)
    (hsame : skipLines a = skipLines b) : Ahead kind b := by
  unfold Ahead at h ⊢
  rwa [next?_eq, hsame, ← next?_eq] at h

/-- The phrase stands in front of a token of that kind only. -/
def Begins (kind : TokenKind) (p : Phrase) : Prop := ∀ a b, p a b → Ahead kind a

theorem Begins.coincide_absent (h : Begins kind p) (fact : Prop) :
    Coincide p (Absent kind) fact := by
  intro a b c d hp hq hsame
  exact absurd ((h a c hp).of_skipLines hsame) hq.2

theorem Begins.coincide (h : Begins kind p) {kind' : TokenKind}
    (h' : Begins kind' q) (hne : kind ≠ kind') (fact : Prop) :
    Coincide p q fact := by
  intro a b c d hp hq hsame
  have hahead := (h a c hp).of_skipLines hsame
  exact absurd (hahead.unique (h' b d hq)) hne

theorem begins_terminal (hline : kind ≠ .endLine) (text : String) :
    Begins kind (Terminal kind text) :=
  fun _ _ h => h.ahead hline

theorem begins_mark (hline : kind ≠ .endLine) : Begins kind (Mark kind) := by
  intro a b h
  rcases h with ⟨text, h⟩
  exact h.ahead hline

theorem Begins.seq (h : Begins kind p) : Begins kind (Then p q) := by
  intro a c hparts
  rcases hparts with ⟨b, hp, -⟩
  exact h a b hp

end

/-! ## Sequences -/

section
variable {α : Type} {kind : TokenKind} {item : α → Phrase} {xs ys : List α}

theorem coincide_followed (hline : kind ≠ .endLine)
    (hitem : ∀ x ∈ xs, ∀ y ∈ ys, Coincide (item x) (item y) (x = y)) :
    Coincide (Followed kind item xs) (Followed kind item ys) (xs = ys) := by
  induction xs generalizing ys with
  | nil =>
      intro a b c d hx hy hsame
      cases hx with
      | nil hnext =>
          cases hy with
          | nil => exact ⟨rfl, hsame⟩
          | cons hmark =>
              have hahead := begins_mark hline _ _ hmark
              exact absurd (hahead.of_skipLines hsame.symm) hnext
  | cons x xs ih =>
      intro a b c d hx hy hsame
      cases hx with
      | cons hmark hfirst hmore =>
          cases hy with
          | nil hnext =>
              have hahead := begins_mark hline _ _ hmark
              exact absurd (hahead.of_skipLines hsame) hnext
          | @cons y ys _ _ _ _ hmark' hfirst' hmore' =>
              have hmid := (coincide_mark hline _ _ _ _ hmark hmark' hsame).2
              have hhere := hitem x List.mem_cons_self y List.mem_cons_self
                _ _ _ _ hfirst hfirst' hmid
              have hrest : Coincide (Followed kind item xs)
                  (Followed kind item ys) (xs = ys) :=
                ih fun x hx y hy => hitem x (List.mem_cons_of_mem _ hx) y
                  (List.mem_cons_of_mem _ hy)
              have hend := hrest _ _ _ _ hmore hmore' hhere.2
              exact ⟨congrArg₂ List.cons hhere.1 hend.1, hend.2⟩

theorem coincide_separated (hline : kind ≠ .endLine)
    (hitem : ∀ x ∈ xs, ∀ y ∈ ys, Coincide (item x) (item y) (x = y)) :
    Coincide (Separated kind item xs) (Separated kind item ys) (xs = ys) := by
  intro a b c d hx hy hsame
  cases hx with
  | @intro x xs _ _ _ hfirst hmore =>
      cases hy with
      | @intro y ys _ _ _ hfirst' hmore' =>
          have hhere := hitem x List.mem_cons_self y List.mem_cons_self
            _ _ _ _ hfirst hfirst' hsame
          have hrest : Coincide (Followed kind item xs)
              (Followed kind item ys) (xs = ys) :=
            coincide_followed hline fun x hx y hy =>
              hitem x (List.mem_cons_of_mem _ hx) y (List.mem_cons_of_mem _ hy)
          have hend := hrest _ _ _ _ hmore hmore' hhere.2
          exact ⟨congrArg₂ List.cons hhere.1 hend.1, hend.2⟩

end

/-! ## Types -/

/-- The whole name of a type, from its first word on. -/
def Named (name : String) : Phrase := fun a c =>
  ∃ first, Then (Word first) (TypeName first name) a c

/-- A type without a size, its arguments behind its whole name. -/
inductive Shown : TypeRef → Phrase where
  | plain {name : String} {a b : List Token} (hname : Named name a b)
      (hnext : ¬ Ahead .less b) : Shown ⟨name, none, []⟩ a b
  | template {name : String} {ts : List TypeRef} {a b c d e : List Token}
      (hname : Named name a b) (hopen : Mark .less b c)
      (hargs : Separated .comma Shown ts c d) (hclose : Mark .greater d e) :
      Shown ⟨name, none, ts⟩ a e

/-- A type with its size. -/
def Sized (t : TypeRef) : Phrase :=
  Then (Shown { t with quantity := none }) (Size t.quantity)

theorem coincide_named (name name' : String) :
    Coincide (Named name) (Named name') (name = name') := by
  intro a b c d hname hname' hsame
  rcases hname with ⟨first, hname⟩
  rcases hname' with ⟨first', hname'⟩
  have hmore : first = first' → Coincide (TypeName first name)
      (TypeName first' name') (name = name') := by
    rintro rfl
    exact (reads_typeName .directive first).coincide name name'
  have hboth := (coincide_word first first').seq hmore
  have hparts := hboth _ _ _ _ hname hname' hsame
  exact ⟨hparts.1.2, hparts.2⟩

section
variable {t u : TypeRef}

theorem coincide_shown (ht : IsPlain t) :
    ∀ u, Coincide (Shown t) (Shown u) (t = u) := by
  induction ht with
  | @intro name arguments _ _ ih =>
      intro u a b c d hx hy hsame
      cases hx with
      | plain hname hnext =>
          cases hy with
          | plain hname' =>
              have hboth := coincide_named _ _ _ _ _ _ hname hname' hsame
              exact ⟨congrArg (TypeRef.mk · none []) hboth.1, hboth.2⟩
          | template hname' hopen =>
              have hboth := coincide_named _ _ _ _ _ _ hname hname' hsame
              have hless := begins_mark (by decide) _ _ hopen
              exact absurd (hless.of_skipLines hboth.2.symm) hnext
      | template hname hopen hargs hclose =>
          cases hy with
          | plain hname' hnext =>
              have hboth := coincide_named _ _ _ _ _ _ hname hname' hsame
              have hless := begins_mark (by decide) _ _ hopen
              exact absurd (hless.of_skipLines hboth.2) hnext
          | template hname' hopen' hargs' hclose' =>
              have hboth := coincide_named _ _ _ _ _ _ hname hname' hsame
              have hinner := (coincide_mark (by decide) _ _ _ _ hopen hopen'
                hboth.2).2
              have hall := coincide_separated (by decide)
                (fun x hx y _ => ih x hx y) _ _ _ _ hargs hargs' hinner
              have hend := (coincide_mark (by decide) _ _ _ _ hclose hclose'
                hall.2).2
              exact ⟨by rw [hboth.1, hall.1], hend⟩

theorem coincide_sized (ht : IsPlain { t with quantity := none }) :
    Coincide (Sized t) (Sized u) (t = u) := by
  have htype := coincide_shown ht { u with quantity := none }
  have hsize := (reads_arraySize .directive).coincide t.quantity u.quantity
  have hboth := htype.seq fun _ => hsize
  apply hboth.imp
  intro hparts
  rcases t with ⟨name, size, arguments⟩
  rcases u with ⟨name', size', arguments'⟩
  simp only [TypeRef.mk.injEq] at hparts ⊢
  exact ⟨hparts.1.1, hparts.2, hparts.1.2.2⟩

end

end Idl.Grammar
