import Idl.Module.Listing
import Mathlib.Data.Nat.Notation
import Mathlib.Order.Basic

/-!
# Quoted texts, read back

The written form of a character tells where it ends: a backslash has a letter
behind it, and the letter for code points is followed by digits up to a brace.
So the written forms stand one behind the other in one way only, and a quote
that is not written with a backslash ends the text.
-/

namespace Idl.Text

/-! ## Stopping at a character -/

/-- Two texts that are equal are equal up to the first character that stops
them, if neither holds such a character before. -/
theorem append_inj_of_stop {α : Type} {p : α → Bool} {xs ys r s : List α}
    {x y : α} (hxs : ∀ z ∈ xs, p z = true) (hys : ∀ z ∈ ys, p z = true)
    (hx : p x = false) (hy : p y = false) (h : xs ++ x :: r = ys ++ y :: s) :
    xs = ys ∧ x :: r = y :: s := by
  have hfront : xs = ys := by
    have htake := congrArg (List.takeWhile p) h
    rw [List.takeWhile_append_of_pos hxs, List.takeWhile_append_of_pos hys,
      List.takeWhile_cons_of_neg (by simp [hx]),
      List.takeWhile_cons_of_neg (by simp [hy]), List.append_nil,
      List.append_nil] at htake
    exact htake
  subst hfront
  exact ⟨rfl, List.append_cancel_left h⟩

/-! ## Digits -/

theorem hexDigits_of_lt {n : Nat} (h : n < 16) :
    hexDigits n = [Nat.digitChar n] :=
  Nat.toDigits_of_lt_base h

theorem hexDigits_of_le {n : Nat} (h : 16 ≤ n) :
    hexDigits n = hexDigits (n / 16) ++ [Nat.digitChar (n % 16)] :=
  Nat.toDigits_of_base_le (by omega) h

theorem hexDigits_ne_nil (n : Nat) : hexDigits n ≠ [] := Nat.toDigits_ne_nil

theorem mem_hexDigits {n : Nat} {c : Char} (h : c ∈ hexDigits n) :
    ∃ d < 16, c = Nat.digitChar d := by
  induction n using Nat.strongRecOn with
  | ind n ih =>
      by_cases hn : n < 16
      · rw [hexDigits_of_lt hn] at h
        exact ⟨n, hn, List.mem_singleton.mp h⟩
      · rw [hexDigits_of_le (by omega)] at h
        rcases List.mem_append.mp h with hfront | hlast
        · exact ih (n / 16) (by omega) hfront
        · exact ⟨n % 16, Nat.mod_lt n (by omega), List.mem_singleton.mp hlast⟩

theorem digitChar_inj : ∀ d < 16, ∀ e < 16,
    Nat.digitChar d = Nat.digitChar e → d = e := by
  decide

theorem hexDigits_inj {m n : Nat} (h : hexDigits m = hexDigits n) : m = n := by
  induction m using Nat.strongRecOn generalizing n with
  | ind m ih =>
      by_cases hm : m < 16
      · rw [hexDigits_of_lt hm] at h
        by_cases hn : n < 16
        · rw [hexDigits_of_lt hn] at h
          exact digitChar_inj m hm n hn (List.singleton_inj.mp h)
        · rw [hexDigits_of_le (by omega)] at h
          simp [List.singleton_eq_append_iff, hexDigits_ne_nil] at h
      · rw [hexDigits_of_le (by omega)] at h
        by_cases hn : n < 16
        · rw [hexDigits_of_lt hn] at h
          simp [List.append_eq_singleton_iff, hexDigits_ne_nil] at h
        · rw [hexDigits_of_le (by omega : 16 ≤ n)] at h
          have hparts := List.append_inj' h rfl
          have hfront := ih (m / 16) (by omega) hparts.1
          have hlast := digitChar_inj _ (Nat.mod_lt m (by omega)) _
            (Nat.mod_lt n (by omega)) (List.singleton_inj.mp hparts.2)
          omega

/-- No digit is one of the marks of a quoted text. -/
theorem digitChar_ne : ∀ d < 16, Nat.digitChar d ≠ '\x7d' ∧
    Nat.digitChar d ≠ '\n' := by
  decide

theorem hexDigits_ne {n : Nat} {c : Char} (h : c ∈ hexDigits n) :
    c ≠ '\x7d' ∧ c ≠ '\n' := by
  rcases mem_hexDigits h with ⟨d, hd, rfl⟩
  exact digitChar_ne d hd

/-! ## Single characters -/

/-- The characters that have a letter of their own, with the letter. -/
def letters : List (Char × Char) :=
  [('"', '"'), ('\\', '\\'), ('\n', 'n'), ('\r', 'r'), ('\t', 't'),
    ('\x00', '0')]

theorem letters_inj : ∀ p ∈ letters, ∀ q ∈ letters,
    p.2 = q.2 → p.1 = q.1 := by
  decide

theorem letters_ne : ∀ p ∈ letters, p.2 ≠ 'u' ∧ p.2 ≠ '\n' := by
  decide

/-- The forms in which a character is written. -/
inductive Escaped (c : Char) : List Char → Prop where
  | plain (hquote : c ≠ '"') (hslash : c ≠ '\\') (hline : c ≠ '\n') :
      Escaped c [c]
  | letter {l : Char} (hletter : (c, l) ∈ letters) : Escaped c ['\\', l]
  | code : Escaped c
      ('\\' :: 'u' :: '\x7b' :: (hexDigits c.toNat ++ ['\x7d']))

theorem escaped (c : Char) : Escaped c (escapeChar c) := by
  by_cases hletter : c ∈ letters.map Prod.fst
  · simp only [letters, List.map_cons, List.map_nil, List.mem_cons,
      List.not_mem_nil, or_false] at hletter
    rcases hletter with rfl | rfl | rfl | rfl | rfl | rfl <;>
      exact .letter (by decide)
  · simp only [letters, List.map_cons, List.map_nil, List.mem_cons,
      List.not_mem_nil, or_false, not_or] at hletter
    rcases hletter with ⟨hquote, hslash, hline, hreturn, htab, hzero⟩
    rw [escapeChar, if_neg hquote, if_neg hslash, if_neg hline,
      if_neg hreturn, if_neg htab, if_neg hzero]
    split
    next => exact .plain hquote hslash hline
    next => exact .code

section
variable {c d : Char} {cs ds r s : List Char}

theorem hexDigits_append_inj {m n : Nat}
    (h : hexDigits m ++ '\x7d' :: r = hexDigits n ++ '\x7d' :: s) :
    m = n ∧ r = s := by
  have hdigits : ∀ k, ∀ z ∈ hexDigits k, (z != '\x7d') = true :=
    fun k z hz => bne_iff_ne.mpr (hexDigits_ne hz).1
  have hparts := append_inj_of_stop (hdigits m) (hdigits n) rfl rfl h
  exact ⟨hexDigits_inj hparts.1, (List.cons.inj hparts.2).2⟩

theorem escapeChar_append_inj (h : escapeChar c ++ r = escapeChar d ++ s) :
    c = d ∧ r = s := by
  have hc := escaped c
  have hd := escaped d
  generalize escapeChar c = u at h hc
  generalize escapeChar d = v at h hd
  cases hc with
  | plain hquote hslash hline =>
      cases hd with
      | plain => exact List.cons.inj h
      | letter => exact absurd (List.cons.inj h).1 hslash
      | code => exact absurd (List.cons.inj h).1 hslash
  | letter hletter =>
      cases hd with
      | plain _ hslash => exact absurd (List.cons.inj h).1.symm hslash
      | letter hletter' =>
          have hsame := List.cons.inj (List.cons.inj h).2
          exact ⟨letters_inj _ hletter _ hletter' hsame.1, hsame.2⟩
      | code =>
          have hsame := List.cons.inj (List.cons.inj h).2
          exact absurd hsame.1 (letters_ne _ hletter).1
  | code =>
      cases hd with
      | plain _ hslash => exact absurd (List.cons.inj h).1.symm hslash
      | letter hletter =>
          have hsame := List.cons.inj (List.cons.inj h).2
          exact absurd hsame.1.symm (letters_ne _ hletter).1
      | code =>
          simp only [List.cons_append, List.append_assoc, List.nil_append,
            List.cons.injEq, true_and] at h
          have hsame := hexDigits_append_inj h
          exact ⟨Char.toNat_inj.mp hsame.1, hsame.2⟩

/-- What ends a quoted text is not the front of a character. -/
theorem escapeChar_append_ne : escapeChar c ++ r ≠ '"' :: s := by
  have hc := escaped c
  generalize escapeChar c = u at hc
  intro h
  cases hc with
  | plain hquote => exact hquote (List.cons.inj h).1
  | letter => exact absurd (List.cons.inj h).1 (by decide)
  | code => exact absurd (List.cons.inj h).1 (by decide)

/-! ## Texts -/

theorem escape_append_inj (h : escape cs ++ '"' :: r = escape ds ++ '"' :: s) :
    cs = ds ∧ r = s := by
  have hcons : ∀ c cs rest,
      escape (c :: cs) ++ rest = escapeChar c ++ (escape cs ++ rest) := by
    intro c cs rest
    rw [escape, List.flatMap_cons, List.append_assoc]
    rfl
  induction cs generalizing ds with
  | nil =>
      cases ds with
      | nil => exact ⟨rfl, (List.cons.inj h).2⟩
      | cons d ds =>
          rw [hcons] at h
          exact absurd h.symm escapeChar_append_ne
  | cons c cs ih =>
      cases ds with
      | nil =>
          rw [hcons] at h
          exact absurd h escapeChar_append_ne
      | cons d ds =>
          rw [hcons, hcons] at h
          have hfront := escapeChar_append_inj h
          have hmore := ih hfront.2
          exact ⟨congrArg₂ List.cons hfront.1 hmore.1, hmore.2⟩

/-- A text in quotes tells what it is, whatever stands behind it. -/
theorem quoted_append_inj {v w : String}
    (h : (quoted v).toList ++ r = (quoted w).toList ++ s) : v = w ∧ r = s := by
  simp only [quoted, String.toList_ofList, List.cons_append, List.append_assoc,
    List.nil_append, List.cons.injEq, true_and] at h
  have hparts := escape_append_inj h
  exact ⟨String.toList_inj.mp hparts.1, hparts.2⟩

theorem newLine_notMem_quoted (v : String) : '\n' ∉ (quoted v).toList := by
  have hchar : ∀ c, '\n' ∉ escapeChar c := by
    intro c
    have hc := escaped c
    generalize escapeChar c = u at hc
    cases hc with
    | plain _ _ hline => simpa using hline.symm
    | letter hletter => simpa using (letters_ne _ hletter).2.symm
    | code =>
        have hdigits : '\n' ∉ hexDigits c.toNat :=
          fun hmem => (hexDigits_ne hmem).2 rfl
        simpa using hdigits
  simpa [quoted, escape] using fun c _ => hchar c

end

end Idl.Text

namespace Idl.Directive

open Text

/-! ## Directives -/

def settingText : Option String → List Char
  | none => "None \x7d".toList
  | some value => "Some(".toList ++ ((quoted value).toList ++ ") \x7d".toList)

theorem settingText_none : settingText none = "None \x7d".toList := rfl

theorem settingText_some (value : String) : settingText (some value) =
    "Some(".toList ++ ((quoted value).toList ++ ") \x7d".toList) := rfl

theorem toList_listing_define (name : String) (value : Option String) :
    (listing (.define name value)).toList = "Define \x7b name: ".toList ++
      ((quoted name).toList ++ (", value: ".toList ++ settingText value)) := by
  cases value with
  | none =>
      have htext : listing (.define name none) = "Define \x7b name: " ++
          quoted name ++ (", value: " ++ "None \x7d") := rfl
      simp only [htext, settingText_none, String.toList_append,
        List.append_assoc]
  | some value =>
      have htext : listing (.define name (some value)) =
          "Define \x7b name: " ++ quoted name ++ (", value: " ++ "Some(") ++
            quoted value ++ ") \x7d" := rfl
      simp only [htext, settingText_some, String.toList_append,
        List.append_assoc]

theorem toList_listing_include (path : String) :
    (listing (.include path)).toList = "Include \x7b path: ".toList ++
      ((quoted path).toList ++ " \x7d".toList) := by
  have htext : listing (.include path) =
      "Include \x7b path: " ++ quoted path ++ " \x7d" := rfl
  simp only [htext, String.toList_append, List.append_assoc]

theorem settingText_inj {v w : Option String}
    (h : settingText v = settingText w) : v = w := by
  cases v with
  | none =>
      cases w with
      | none => rfl
      | some w => exact absurd (List.cons.inj h).1 (by decide)
  | some v =>
      cases w with
      | none => exact absurd (List.cons.inj h).1 (by decide)
      | some w =>
          have hquoted := quoted_append_inj (List.append_cancel_left h)
          exact congrArg some hquoted.1

/-- The text of a directive tells the directive. -/
theorem listing_inj {d e : Directive} (h : d.listing = e.listing) : d = e := by
  have hchars := congrArg String.toList h
  cases d with
  | define name value =>
      cases e with
      | define name' value' =>
          rw [toList_listing_define, toList_listing_define] at hchars
          have hname := quoted_append_inj (List.append_cancel_left hchars)
          have hvalue := settingText_inj (List.append_cancel_left hname.2)
          exact congrArg₂ define hname.1 hvalue
      | «include» path' =>
          rw [toList_listing_define, toList_listing_include] at hchars
          exact absurd (List.cons.inj hchars).1 (by decide)
  | «include» path =>
      cases e with
      | define name' value' =>
          rw [toList_listing_define, toList_listing_include] at hchars
          exact absurd (List.cons.inj hchars).1 (by decide)
      | «include» path' =>
          rw [toList_listing_include, toList_listing_include] at hchars
          have hpath := quoted_append_inj (List.append_cancel_left hchars)
          exact congrArg «include» hpath.1

theorem newLine_notMem_settingText (value : Option String) :
    '\n' ∉ settingText value := by
  cases value with
  | none => decide
  | some value =>
      simp only [settingText_some, List.mem_append, not_or]
      exact ⟨by decide, newLine_notMem_quoted value, by decide⟩

theorem newLine_notMem_listing (d : Directive) :
    '\n' ∉ d.listing.toList := by
  cases d with
  | define name value =>
      simp only [toList_listing_define, List.mem_append, not_or]
      exact ⟨by decide, newLine_notMem_quoted name, by decide,
        newLine_notMem_settingText value⟩
  | «include» path =>
      simp only [toList_listing_include, List.mem_append, not_or]
      exact ⟨by decide, newLine_notMem_quoted path, by decide⟩

end Idl.Directive
