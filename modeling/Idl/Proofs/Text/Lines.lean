import Idl.Proofs.Text.Bytes
import Idl.Text.Lines

/-!
# The line around an offset

Every offset into a text lies on one line of it.  What stands in front of that
line is empty or ends in a line feed, the line itself holds none, and what
stands behind it is empty or starts with one; the offset of a line feed lies on
the line that the line feed ends (`LineAt`).  So the lines in front are counted
by their line feeds, and cutting the text into lines gives the line at the
place that this number says (`lines_getElem?`).  The one exception is the end
of a text without an open line, where there is no line to give.
-/

namespace Idl.Text

/-- What stands in front of a line, where `feed` ends lines: nothing, or
something that ends a line. -/
def OpensLine {α : Type} (feed : α) (front : List α) : Prop :=
  ∀ x ∈ front.getLast?, x = feed

section
variable {α : Type} {feed : α}

theorem opensLine_nil : OpensLine feed [] := nofun

theorem opensLine_concat (front : List α) :
    OpensLine feed (front ++ [feed]) := by
  intro x hx
  rw [List.getLast?_concat, Option.mem_some_iff] at hx
  exact hx.symm

theorem OpensLine.cases {front : List α} (h : OpensLine feed front) :
    front = [] ∨ ∃ before, front = before ++ [feed] := by
  rcases List.eq_nil_or_concat front with rfl | ⟨before, x, rfl⟩
  · exact .inl rfl
  · rw [List.concat_eq_append] at h ⊢
    obtain rfl : x = feed := h x (by simp)
    exact .inr ⟨before, rfl⟩

/-- In front of a longer text there stands more. -/
theorem OpensLine.cons {front : List α} (x : α) (hne : front ≠ [])
    (h : OpensLine feed front) : OpensLine feed (x :: front) := by
  rcases h.cases with rfl | ⟨before, rfl⟩
  · exact absurd rfl hne
  · exact opensLine_concat (x :: before)

theorem opensLine_of_cons {front : List α} {x : α}
    (h : OpensLine feed (x :: front)) : OpensLine feed front := by
  intro y hy
  rw [Option.mem_def] at hy
  exact h y (by rw [List.getLast?_cons, hy]; rfl)

/-- Behind its last line feed a list opens a line. -/
theorem exists_opensLine [DecidableEq α] (feed : α) (xs : List α) :
    ∃ front run, xs = front ++ run ∧ OpensLine feed front ∧ feed ∉ run := by
  induction xs with
  | nil => exact ⟨[], [], rfl, opensLine_nil, List.not_mem_nil⟩
  | cons x xs ih =>
      obtain ⟨front, run, rfl, hfront, hrun⟩ := ih
      by_cases hne : front = []
      · subst hne
        by_cases hx : x = feed
        · exact ⟨[x], run, rfl, hx ▸ opensLine_concat [], hrun⟩
        · exact ⟨[], x :: run, rfl, opensLine_nil,
            List.not_mem_cons_of_ne_of_not_mem (Ne.symm hx) hrun⟩
      · exact ⟨x :: front, run, rfl, hfront.cons x hne, hrun⟩

end

/-! ## The line of an offset -/

/-- The offset lies on the line `line` of the source, which stands between
`front` and `rest`. -/
structure LineAt (source : List Char) (offset : Nat)
    (front line rest : List Char) : Prop where
  whole : source = front ++ (line ++ rest)
  opens : OpensLine '\n' front
  clean : '\n' ∉ line
  closes : ∀ c ∈ rest.head?, c = '\n'
  from_le : byteLength front ≤ offset
  le_to : offset ≤ byteLength front + byteLength line

theorem exists_lineAt {source : List Char} {offset : Nat}
    (h : offset ≤ byteLength source) :
    ∃ front line rest, LineAt source offset front line rest := by
  induction source generalizing offset with
  | nil =>
      exact ⟨[], [], [], rfl, opensLine_nil, List.not_mem_nil, nofun,
        Nat.zero_le _, h⟩
  | cons c source ih =>
      rw [byteLength_cons] at h
      have hbehind : offset - c.utf8Size ≤ byteLength source := by omega
      obtain ⟨front, line, rest, rfl, hopens, hclean, hcloses, hfrom, hto⟩ :=
        ih hbehind
      by_cases hfeed : c = '\n'
      · subst hfeed
        have hsize : '\n'.utf8Size = 1 := rfl
        rw [hsize] at hfrom hto
        by_cases hzero : offset = 0
        -- In front of the first line feed there is an empty line.
        · exact ⟨[], [], _, rfl, opensLine_nil, List.not_mem_nil, by simp,
            Nat.zero_le _, by omega⟩
        · refine ⟨'\n' :: front, line, rest, rfl, ?_, hclean, hcloses, ?_, ?_⟩
          · by_cases hne : front = []
            · exact hne ▸ opensLine_concat []
            · exact hopens.cons _ hne
          all_goals
            rw [byteLength_cons, hsize]
            omega
      · by_cases hne : front = []
        · subst hne
          refine ⟨[], c :: line, rest, rfl, opensLine_nil,
            List.not_mem_cons_of_ne_of_not_mem (Ne.symm hfeed) hclean, hcloses,
            Nat.zero_le _, ?_⟩
          rw [byteLength_cons]
          omega
        · have hpos := byteLength_pos hne
          refine ⟨c :: front, line, rest, rfl, hopens.cons c hne, hclean,
            hcloses, ?_, ?_⟩
          all_goals
            rw [byteLength_cons]
            omega

/-! ## Cutting into lines -/

theorem splitFrom_eq (done : List (List Char)) (part cs : List Char) :
    splitFrom done part cs = done.reverse ++ splitFrom [] part cs := by
  induction cs generalizing done part with
  | nil => cases part <;> simp [splitFrom]
  | cons c cs ih =>
      rw [splitFrom, splitFrom]
      split
      · rw [ih, ih [_]]
        simp
      · exact ih done _

section
variable {front line rest : List Char}

/-- What opens a line is cut into as many pieces as it has line feeds. -/
theorem splitFrom_append (hopens : OpensLine '\n' front) (part : List Char)
    (hpart : front = [] → part = []) :
    ∃ pieces, pieces.length = front.count '\n' ∧
      ∀ cs, splitFrom [] part (front ++ cs) = pieces ++ splitFrom [] [] cs := by
  induction front generalizing part with
  | nil =>
      obtain rfl := hpart rfl
      exact ⟨[], rfl, fun _ => rfl⟩
  | cons c front ih =>
      have hmore := opensLine_of_cons hopens
      by_cases hfeed : c = '\n'
      · obtain ⟨pieces, hlength, hsplit⟩ := ih hmore [] (fun _ => rfl)
        refine ⟨(c :: part).reverse :: pieces, ?_, fun cs => ?_⟩
        · rw [List.length_cons, hlength, hfeed, List.count_cons_self]
        · rw [List.cons_append, splitFrom, if_pos hfeed, splitFrom_eq, hsplit]
          rfl
      · have hne : front ≠ [] := by
          rintro rfl
          exact hfeed (hopens c rfl)
        obtain ⟨pieces, hlength, hsplit⟩ :=
          ih hmore (c :: part) (fun h => absurd h hne)
        refine ⟨pieces, ?_, fun cs => ?_⟩
        · rw [hlength, List.count_cons_of_ne hfeed]
        · rw [List.cons_append, splitFrom, if_neg hfeed, hsplit]

/-- The first piece of a text is its first line with the line feed. -/
theorem head?_splitFrom (hclean : '\n' ∉ line)
    (hcloses : ∀ c ∈ rest.head?, c = '\n') (part : List Char) :
    (splitFrom [] part (line ++ rest)).head? =
      if part = [] ∧ line = [] ∧ rest = [] then none
      else some (part.reverse ++ line ++ rest.take 1) := by
  induction line generalizing part with
  | nil =>
      cases rest with
      | nil => cases part <;> simp [splitFrom]
      | cons c rest =>
          obtain rfl := hcloses c rfl
          rw [List.nil_append, splitFrom, if_pos rfl, splitFrom_eq]
          simp
  | cons c line ih =>
      obtain ⟨hc, hline⟩ := List.ne_and_not_mem_of_not_mem_cons hclean
      rw [List.cons_append, splitFrom, if_neg (Ne.symm hc), ih hline]
      simp

/-- A line without a carriage return directly in front of its line feed. -/
def trimLine (line rest : List Char) : List Char :=
  if rest ≠ [] ∧ line.getLast? = some '\r' then line.dropLast else line

theorem dropLineEnd_eq (hclean : '\n' ∉ line)
    (hcloses : ∀ c ∈ rest.head?, c = '\n') :
    dropLineEnd (line ++ rest.take 1) = trimLine line rest := by
  cases rest with
  | nil =>
      have hlast : '\n' ∉ line.reverse := by simpa using hclean
      rw [List.take_nil, List.append_nil, trimLine, if_neg (by simp),
        dropLineEnd]
      split
      next h => simp [h] at hlast
      next h => simp [h] at hlast
      next => rfl
  | cons c rest =>
      obtain rfl := hcloses c rfl
      rcases List.eq_nil_or_concat line with rfl | ⟨before, d, rfl⟩
      · rfl
      · by_cases hd : d = '\r'
        · simp [dropLineEnd, trimLine, hd]
        · simp [dropLineEnd, trimLine, hd]

end

/-- The line of an offset is at the place that the line feeds in front of it
tell. -/
theorem LineAt.lines_getElem? {source : String} {offset : Nat}
    {front line rest : List Char}
    (h : LineAt source.toList offset front line rest) :
    (lines source)[front.count '\n']? =
      if line = [] ∧ rest = [] then none
      else some (String.ofList (trimLine line rest)) := by
  obtain ⟨pieces, hlength, hsplit⟩ :=
    splitFrom_append h.opens [] (fun _ => rfl)
  rw [lines, h.whole, hsplit, List.getElem?_map, ← hlength,
    List.getElem?_append_right (Nat.le_refl _), Nat.sub_self,
    ← List.head?_eq_getElem?, head?_splitFrom h.clean h.closes]
  split
  next hnone => rw [if_pos hnone.2, Option.map_none]
  next hsome =>
    rw [if_neg (by simpa using hsome), Option.map_some, List.reverse_nil,
      List.nil_append, dropLineEnd_eq h.clean h.closes]

end Idl.Text
