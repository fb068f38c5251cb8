import Idl.Proofs.Listing.Entries
import Idl.Proofs.Listing.Quoted

/-!
# Lines of a listing, read back

Names and types are made of word characters and a few marks, among them neither
a line end nor an equality sign, and an entry starts with a word.  So the spaces
in front of a line tell its depth, and a line ends where its text ends.  Only
values of constants hold texts of any kind, behind the first equality sign of
their line.
-/

namespace Idl

/-! ## Neat texts -/

/-- The characters of names and types and of the marks between them. -/
def isEntryChar (c : Char) : Bool :=
  isWordChar c ||
    [' ', ',', ':', '[', ']', '<', '>', '(', ')'].contains c

def Clean (s : String) : Prop := ∀ c ∈ s.toList, isEntryChar c = true

-- named, since searching for it may find the test that runs over every `Char`
instance : DecidablePred Clean := fun s =>
  List.decidableBAll (fun c => isEntryChar c = true) s.toList

/-- A text of names and marks that starts with a word. -/
structure Neat (s : String) : Prop where
  front : ∃ c cs, s.toList = c :: cs ∧ isWordChar c = true
  clean : Clean s

section
variable {s t : String}

theorem Clean.append (hs : Clean s) (ht : Clean t) : Clean (s ++ t) := by
  intro c hc
  rw [String.toList_append] at hc
  rcases List.mem_append.mp hc with hleft | hright
  · exact hs c hleft
  · exact ht c hright

theorem Clean.notMem (h : Clean s) {c : Char} (hc : isEntryChar c = false) :
    c ∉ s.toList := by
  intro hmem
  rw [h c hmem] at hc
  cases hc

theorem clean_intercalate {mark : String} {xs : List String}
    (hmark : Clean mark) (hxs : ∀ x ∈ xs, Clean x) :
    Clean (String.intercalate mark xs) := by
  induction xs with
  | nil => exact List.forall_mem_nil _
  | cons x xs ih =>
      have hx := hxs x List.mem_cons_self
      have hmore := ih fun y hy => hxs y (List.mem_cons_of_mem x hy)
      cases xs with
      | nil => simpa [String.intercalate_singleton] using hx
      | cons y ys =>
          rw [String.intercalate_cons_cons]
          exact (hx.append hmark).append hmore

theorem Neat.append (hs : Neat s) (ht : Clean t) : Neat (s ++ t) where
  front := by
    rcases hs.front with ⟨c, cs, hchars, hc⟩
    refine ⟨c, cs ++ t.toList, ?_, hc⟩
    rw [String.toList_append, hchars, List.cons_append]
  clean := hs.clean.append ht

end

/-! ## Names -/

theorem IsIdent.neat {w : String} (h : IsIdent w) : Neat w where
  front := by
    cases hw : w.toList with
    | nil => exact absurd (String.toList_eq_nil_iff.mp hw) h.ne_empty
    | cons c cs =>
        have hc : c ∈ w.toList := hw ▸ List.mem_cons_self
        exact ⟨c, cs, rfl, h.wordChar c hc⟩
  clean := by
    intro c hc
    rw [isEntryChar, h.wordChar c hc, Bool.true_or]

theorem neat_qualified {first : String} {segments : List String}
    (hfirst : Neat first) (hmore : ∀ s ∈ segments, IsIdent s) :
    Neat (qualified first segments) := by
  induction segments generalizing first with
  | nil => simpa [qualified] using hfirst
  | cons s segments ih =>
      have hs := (hmore s List.mem_cons_self).neat
      have hrest := ih hs fun t ht => hmore t (List.mem_cons_of_mem s ht)
      have hmark : Clean "::" := by decide
      have htext : qualified first (s :: segments) =
          first ++ ("::" ++ qualified s segments) := by
        rw [qualified, String.intercalate_cons_cons, String.append_assoc]
        rfl
      rw [htext]
      exact hfirst.append (hmark.append hrest.clean)

theorem IsPath.neat {name : String} (h : IsPath name) : Neat name := by
  rcases h with ⟨first, segments, hfirst, hmore, rfl⟩
  exact neat_qualified hfirst.neat hmore

theorem clean_bracketed {size : Option String}
    (h : ∀ n ∈ size, IsIdent n) : Clean (bracketed size) := by
  cases size with
  | none => exact List.forall_mem_nil _
  | some n =>
      have hopen : Clean "[" := by decide
      have hclose : Clean "]" := by decide
      exact (hopen.append (h n rfl).neat.clean).append hclose

theorem IsHeading.neat {name : String} (h : IsHeading name) : Neat name := by
  cases h with
  | intro hname hsize =>
      exact (IsPath.neat hname).append (clean_bracketed hsize)

theorem IsTypeName.neat {name : String} (h : IsTypeName name) :
    Neat name := by
  rcases h with ⟨base, segments, hbase, hmore, rfl⟩
  have hneat : Neat base := by
    cases hbase with
    | word hw => exact hw.neat
    | unsigned hw =>
        have hunsigned : Neat "unsigned" := IsIdent.neat (by decide)
        have hblank : Clean " " := by decide
        have hboth := (hunsigned.append hblank).append hw.neat.clean
        have htext : "unsigned " = "unsigned" ++ " " := by decide
        rwa [htext]
    | longLong => exact ⟨⟨'l', _, rfl, rfl⟩, by decide⟩
    | unsignedLongLong => exact ⟨⟨'u', _, rfl, rfl⟩, by decide⟩
  exact neat_qualified hneat hmore

/-! ## Types -/

theorem IsPlain.neat {t : TypeRef} (h : IsPlain t) : Neat t.text := by
  induction h with
  | @intro name arguments hname _ ih =>
      have harguments : Clean (TypeRef.argumentList
          (arguments.map TypeRef.text)) := by
        cases arguments with
        | nil => exact List.forall_mem_nil _
        | cons t ts =>
            have hopen : Clean "<" := by decide
            have hclose : Clean ">" := by decide
            have htexts : Clean (String.intercalate ", "
                ((t :: ts).map TypeRef.text)) := by
              refine clean_intercalate (by decide) fun x hx => ?_
              rcases List.mem_map.mp hx with ⟨u, hu, rfl⟩
              exact (ih u hu).clean
            exact (hopen.append htexts).append hclose
      rw [TypeRef.text, TypeRef.texts_eq_map]
      exact ((IsTypeName.neat hname).append harguments).append
        (List.forall_mem_nil _)

theorem neat_text {t : TypeRef} (h : IsPlain { t with quantity := none })
    (hsize : ∀ n ∈ t.quantity, IsIdent n) : Neat t.text := by
  have hneat := h.neat.append (clean_bracketed hsize)
  rcases t with ⟨name, size, arguments⟩
  simpa [TypeRef.text, bracketed] using hneat

/-! ## Entries -/

theorem neat_typedName {m : Member} (h : Declares m.type m.name) :
    Neat (typedName m.name m.type) := by
  have hopen : Clean " (" := by decide
  have hclose : Clean ")" := by decide
  exact (((IsPath.neat h.path).append hopen).append
    (neat_text h.plain h.size).clean).append hclose

theorem Direction.neat (direction : Direction) : Neat direction.word := by
  cases direction with
  | input => exact IsIdent.neat (by decide)
  | output => exact IsIdent.neat (by decide)
  | both => exact IsIdent.neat (by decide)

theorem Parameter.WellShaped.clean {p : Parameter} (h : p.WellShaped) :
    Clean p.text := by
  have hblank : Clean " " := by decide
  cases h with
  | @named direction type name hdeclares =>
      have hname := hblank.append (IsPath.neat hdeclares.path).clean
      have htype := neat_text hdeclares.plain hdeclares.size
      exact ((direction.neat.clean.append hblank).append htype.clean).append
        hname
  | @unnamed direction type htype =>
      have hfront := direction.neat.clean.append hblank
      exact (hfront.append htype.neat.clean).append (List.forall_mem_nil _)

theorem Method.WellShaped.neat {m : Method} (h : m.WellShaped) :
    Neat m.listing := by
  have hblank : Clean " " := by decide
  have hopen : Clean "(" := by decide
  have hclose : Clean ")" := by decide
  have hparameters : Clean (String.intercalate ", "
      (m.parameters.map Parameter.text)) := by
    refine clean_intercalate (by decide) fun x hx => ?_
    rcases List.mem_map.mp hx with ⟨p, hp, rfl⟩
    exact (h.parameters p hp).clean
  exact ((((h.result.neat.append hblank).append h.name.neat.clean).append
    hopen).append hparameters).append hclose

theorem UnionCase.WellShaped.neat {c : UnionCase} (h : c.WellShaped) :
    Neat c.listing := by
  have hcase : Neat "case" := IsIdent.neat (by decide)
  have hblank : Clean " " := by decide
  have hcolon : Clean ": " := by decide
  have htext : "case " = "case" ++ " " := by decide
  have hmember : Declares c.type c.name := h.member
  have hfield : Neat (typedName c.name c.type) :=
    neat_typedName (m := ⟨c.name, c.type⟩) hmember
  rw [UnionCase.listing, htext]
  exact (((hcase.append hblank).append h.selector.neat.clean).append
    hcolon).append hfield.clean

theorem neat_derived {name : String} {bases : List String}
    (hname : IsHeading name) (hbases : ∀ b ∈ bases, IsHeading b) :
    Neat (name ++ baseList bases) := by
  have hclean : Clean (baseList bases) := by
    cases bases with
    | nil => exact List.forall_mem_nil _
    | cons b bs =>
        have hopen : Clean " (: " := by decide
        have hclose : Clean ")" := by decide
        have htexts : Clean (String.intercalate ", " (b :: bs)) :=
          clean_intercalate (by decide) fun x hx => (hbases x hx).neat.clean
        exact (hopen.append htexts).append hclose
  exact hname.neat.append hclean

theorem neat_switch {name : String} {type : TypeRef} (hname : IsHeading name)
    (htype : IsPlain type) :
    Neat (name ++ " switch (" ++ type.text ++ ")") := by
  have hswitch : Clean " switch (" := by decide
  have hclose : Clean ")" := by decide
  exact ((hname.neat.append hswitch).append htype.neat.clean).append hclose

/-! ## Values -/

/-- A neat text ends at the first equality sign. -/
theorem append_equals_inj {s t v w : String} (hs : Clean s) (ht : Clean t)
    (h : s ++ " = " ++ v = t ++ " = " ++ w) : s = t ∧ v = w := by
  have hneat : ∀ {u : String}, Clean u →
      ∀ c ∈ u.toList ++ [' '], (c != '=') = true := by
    intro u hu c hc
    rcases List.mem_append.mp hc with hin | hblank
    · refine bne_iff_ne.mpr fun hsame => ?_
      exact hu.notMem (by decide) (hsame ▸ hin)
    · rw [List.mem_singleton.mp hblank]
      rfl
  have hchars : ∀ u x : String, (u ++ " = " ++ x).toList =
      (u.toList ++ [' ']) ++ '=' :: ' ' :: x.toList := by
    intro u x
    simp
  have hsame := congrArg String.toList h
  rw [hchars, hchars] at hsame
  have hparts := Text.append_inj_of_stop (hneat hs) (hneat ht) rfl rfl hsame
  have hvalue := (List.cons.inj (List.cons.inj hparts.2).2).2
  exact ⟨String.toList_inj.mp (List.append_cancel_right hparts.1),
    String.toList_inj.mp hvalue⟩

theorem Constant.listing_inj {c d : Constant} (hc : Declares c.type c.name)
    (hd : Declares d.type d.name) (h : c.listing = d.listing) : c = d := by
  rcases c with ⟨name, type, value⟩
  rcases d with ⟨name', type', value'⟩
  have hfield : Declares type name := hc
  have hfield' : Declares type' name' := hd
  have hparts := append_equals_inj
    (neat_typedName (m := ⟨name, type⟩) hfield).clean
    (neat_typedName (m := ⟨name', type'⟩) hfield').clean h
  have hmember := typedName_inj (m := ⟨name, type⟩) (n := ⟨name', type'⟩)
    hfield hfield' hparts.1
  have hnames := Member.mk.inj hmember
  exact Constant.mk.injEq .. ▸ ⟨hnames.1, hnames.2, hparts.2⟩

/-! ## Lines -/

namespace ListingLine

/-- A line that tells its depth and its end. -/
structure Legible (l : ListingLine) : Prop where
  front : ∃ c cs, l.text.toList = c :: cs ∧ c ≠ ' '
  line : '\n' ∉ l.text.toList

theorem legible_of_neat {depth : Nat} {text : String} (h : Neat text) :
    Legible ⟨depth, text⟩ where
  front := by
    rcases h.front with ⟨c, cs, hchars, hc⟩
    refine ⟨c, cs, hchars, ?_⟩
    rintro rfl
    exact absurd hc (by decide)
  line := h.clean.notMem (by decide)

theorem toList_render (l : ListingLine) (rest : List Char) :
    l.render.toList ++ rest =
      List.replicate (2 * l.depth) ' ' ++ (l.text.toList ++ '\n' :: rest) := by
  simp [render, Text.blanks]

theorem render_append_inj {l m : ListingLine} {r s : List Char}
    (hl : l.Legible) (hm : m.Legible)
    (h : l.render.toList ++ r = m.render.toList ++ s) : l = m ∧ r = s := by
  have hblank : ∀ n, ∀ c ∈ List.replicate n ' ', (c == ' ') = true := by
    intro n c hc
    rw [List.eq_of_mem_replicate hc]
    rfl
  have hline : ∀ {k : ListingLine}, k.Legible →
      ∀ c ∈ k.text.toList, (c != '\n') = true := fun hk c hc =>
    bne_iff_ne.mpr fun hsame => hk.line (hsame ▸ hc)
  rcases hl.front with ⟨c, cs, hchars, hc⟩
  rcases hm.front with ⟨d, ds, hchars', hd⟩
  rw [toList_render, toList_render] at h
  have hdepth : 2 * l.depth = 2 * m.depth ∧
      l.text.toList ++ '\n' :: r = m.text.toList ++ '\n' :: s := by
    rw [hchars, hchars'] at h ⊢
    have hparts := Text.append_inj_of_stop (hblank _) (hblank _)
      (beq_eq_false_iff_ne.mpr hc) (beq_eq_false_iff_ne.mpr hd) h
    have hlength := congrArg List.length hparts.1
    rw [List.length_replicate, List.length_replicate] at hlength
    exact ⟨hlength, hparts.2⟩
  have htext := Text.append_inj_of_stop (hline hl) (hline hm) rfl rfl hdepth.2
  rcases l with ⟨depth, text⟩
  rcases m with ⟨depth', text'⟩
  have hdepths : depth = depth' :=
    Nat.eq_of_mul_eq_mul_left (by decide) hdepth.1
  have htexts : text = text' := String.toList_inj.mp htext.1
  exact ⟨congrArg₂ mk hdepths htexts, (List.cons.inj htext.2).2⟩

/-- The text of a listing tells its lines. -/
theorem renderAll_inj {ls ms : List ListingLine} (hls : ∀ l ∈ ls, l.Legible)
    (hms : ∀ m ∈ ms, m.Legible) (h : renderAll ls = renderAll ms) :
    ls = ms := by
  have hcons : ∀ l ls, (renderAll (l :: ls)).toList =
      l.render.toList ++ (renderAll ls).toList := by
    intro l ls
    simp [renderAll]
  have hne : ∀ l ls, renderAll (l :: ls) ≠ "" := by
    intro l ls hempty
    have hchars := congrArg String.toList hempty
    rw [hcons, toList_render] at hchars
    simp at hchars
  induction ls generalizing ms with
  | nil =>
      cases ms with
      | nil => rfl
      | cons m ms => exact absurd h.symm (hne m ms)
  | cons l ls ih =>
      cases ms with
      | nil => exact absurd h (hne l ls)
      | cons m ms =>
          have hchars := congrArg String.toList h
          rw [hcons, hcons] at hchars
          have hfront := render_append_inj (hls l List.mem_cons_self)
            (hms m List.mem_cons_self) hchars
          have hmore := ih (fun k hk => hls k (List.mem_cons_of_mem l hk))
            (fun k hk => hms k (List.mem_cons_of_mem m hk))
            (String.toList_inj.mp hfront.2)
          exact congrArg₂ List.cons hfront.1 hmore

end ListingLine

end Idl
