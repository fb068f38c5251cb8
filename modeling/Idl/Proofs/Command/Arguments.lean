import Idl.Command.Options
import Mathlib.Data.List.Basic

/-!
# How arguments are understood

The first argument that is out of place decides what is said about a misused
command: an unknown option, or a path behind another one.  If none is out of
place there may still be no path.  A command that is not misused has one path,
and the order of its arguments does not matter.
-/

namespace Idl.Command

/-! ## Arguments in their places -/

def Dashed (argument : String) : Prop := argument.toList.head? = some '-'

instance : DecidablePred Dashed :=
  fun argument => inferInstanceAs (Decidable (argument.toList.head? = some '-'))

def TokenFlag (argument : String) : Prop :=
  argument = "-t" ∨ argument = "--tokens"

/-- An argument that starts with a hyphen and is no flag. -/
def UnknownOption (argument : String) : Prop :=
  Dashed argument ∧ ¬ TokenFlag argument

/-- The arguments that do not start with a hyphen. -/
def paths (arguments : List String) : List String :=
  arguments.filter fun argument => ¬ Dashed argument

/-- The argument is out of place behind the arguments in front of it. -/
inductive Offence (front : List String) : String → UsageError → Prop where
  | unknownOption {argument : String} (h : UnknownOption argument) :
      Offence front argument (.unknownOption argument)
  | secondPath {argument : String} (hpath : ¬ Dashed argument)
      (hfirst : ∃ first ∈ front, ¬ Dashed first) :
      Offence front argument (.unexpectedArgument argument)

/-- No argument is out of place. -/
def Orderly (arguments : List String) : Prop :=
  ∀ front argument rest e, arguments = front ++ argument :: rest →
    ¬ Offence front argument e

/-- What is wrong with the arguments: the earliest one that is out of place, or
else that there is no path. -/
inductive Misuse : List String → UsageError → Prop where
  | offence {front rest : List String} {argument : String} {e : UsageError}
      (hfront : Orderly front) (h : Offence front argument e) :
      Misuse (front ++ argument :: rest) e
  | missingPath {arguments : List String} (h : Orderly arguments)
      (hpaths : paths arguments = []) : Misuse arguments .missingPath

/-- The arguments make no sense. -/
def Misused (arguments : List String) : Prop :=
  (∃ argument ∈ arguments, UnknownOption argument) ∨
    (paths arguments).length ≠ 1

section
variable {front arguments arguments' : List String} {argument : String}
  {path : Option String} {tokens : Bool} {options : Options} {e : UsageError}

theorem isOption_iff : isOption argument = true ↔ Dashed argument := by
  simp [isOption, Dashed]

theorem isTokenFlag_iff : isTokenFlag argument = true ↔ TokenFlag argument := by
  simp [isTokenFlag, TokenFlag]

theorem TokenFlag.dashed (h : TokenFlag argument) : Dashed argument := by
  rcases h with rfl | rfl <;> decide

theorem paths_cons_dashed (h : Dashed argument) :
    paths (argument :: arguments) = paths arguments := by
  simp [paths, h]

theorem paths_cons_path (h : ¬ Dashed argument) :
    paths (argument :: arguments) = argument :: paths arguments := by
  simp [paths, h]

theorem mem_paths : argument ∈ paths arguments ↔
    argument ∈ arguments ∧ ¬ Dashed argument := by
  simp [paths]

/-- The three ways in which the scan goes on. -/
theorem scan_cons (path : Option String) (tokens : Bool) (argument : String)
    (arguments : List String) :
    TokenFlag argument ∧
        scan path tokens (argument :: arguments) = scan path true arguments ∨
    UnknownOption argument ∧
        scan path tokens (argument :: arguments) =
          .error (.unknownOption argument) ∨
    ¬ Dashed argument ∧
        scan path tokens (argument :: arguments) =
          match path with
          | none => scan (some argument) tokens arguments
          | some _ => .error (.unexpectedArgument argument) := by
  rw [scan.eq_def]
  dsimp only
  by_cases hflag : TokenFlag argument
  · rw [if_pos (isTokenFlag_iff.mpr hflag)]
    exact .inl ⟨hflag, rfl⟩
  · rw [if_neg (mt isTokenFlag_iff.mp hflag)]
    by_cases hdashed : Dashed argument
    · rw [if_pos (isOption_iff.mpr hdashed)]
      exact .inr (.inl ⟨⟨hdashed, hflag⟩, rfl⟩)
    · rw [if_neg (mt isOption_iff.mp hdashed)]
      exact .inr (.inr ⟨hdashed, rfl⟩)

/-- Arguments are understood if none is unknown and there is one path among
them and before them. -/
theorem scan_eq_ok_iff :
    scan path tokens arguments = .ok options ↔
      (∀ argument ∈ arguments, ¬ UnknownOption argument) ∧
      path.toList ++ paths arguments = [options.path] ∧
      (options.tokens = true ↔
        tokens = true ∨ ∃ argument ∈ arguments, TokenFlag argument) := by
  induction arguments generalizing path tokens with
  | nil =>
      rcases options with ⟨file, listed⟩
      cases path with
      | none => simp [scan, paths]
      | some first => cases tokens <;> cases listed <;> simp [scan, paths]
  | cons argument arguments ih =>
      rcases scan_cons path tokens argument arguments with
        ⟨hflag, hscan⟩ | ⟨hunknown, hscan⟩ | ⟨hpath, hscan⟩
      · have hknown : ¬ UnknownOption argument := fun h => h.2 hflag
        rw [hscan, ih, paths_cons_dashed hflag.dashed]
        simp [hknown, hflag]
      · rw [hscan]
        simp [hunknown]
      · have hknown : ¬ UnknownOption argument := fun h => hpath h.1
        have hflag : ¬ TokenFlag argument := fun h => hpath h.dashed
        rw [hscan, paths_cons_path hpath]
        cases path with
        | none =>
            simp only [ih]
            simp [hknown, hflag]
        | some first => simp

theorem ofArguments_eq_ok_iff :
    Options.ofArguments arguments = .ok options ↔
      (∀ argument ∈ arguments, ¬ UnknownOption argument) ∧
      paths arguments = [options.path] ∧
      (options.tokens = true ↔ ∃ argument ∈ arguments, TokenFlag argument) := by
  rw [Options.ofArguments, scan_eq_ok_iff]
  simp

/-! ## Misuse -/

theorem Orderly.concat (h : Orderly front)
    (hlast : ∀ e, ¬ Offence front argument e) :
    Orderly (front ++ [argument]) := by
  intro before last rest e heq
  rcases List.eq_nil_or_concat rest with rfl | ⟨rest, final, rfl⟩
  · obtain ⟨rfl, hsame⟩ := List.append_inj' heq rfl
    cases hsame
    exact hlast e
  · have hsplit : front ++ [argument] =
        (before ++ last :: rest) ++ [final] := by simpa using heq
    obtain ⟨rfl, -⟩ := List.append_inj' hsplit rfl
    exact h before last rest e rfl

theorem misuse_of_scan (hfront : Orderly front)
    (hpaths : paths front = path.toList)
    (h : scan path tokens arguments = .error e) :
    Misuse (front ++ arguments) e := by
  induction arguments generalizing front path tokens with
  | nil =>
      rw [List.append_nil]
      cases path with
      | none =>
          cases h
          exact .missingPath hfront hpaths
      | some first => cases h
  | cons argument arguments ih =>
      have hsplit : front ++ argument :: arguments =
          (front ++ [argument]) ++ arguments := by simp
      rcases scan_cons path tokens argument arguments with
        ⟨hflag, hscan⟩ | ⟨hunknown, hscan⟩ | ⟨hpath, hscan⟩
      · rw [hscan] at h
        rw [hsplit]
        refine ih (hfront.concat ?_) ?_ h
        · rintro e (hunknown | hpath)
          · exact hunknown.2 hflag
          · exact hpath hflag.dashed
        · simpa [paths, hflag.dashed] using hpaths
      · rw [hscan] at h
        cases h
        exact .offence hfront (.unknownOption hunknown)
      · rw [hscan] at h
        cases path with
        | none =>
            rw [hsplit]
            refine ih (hfront.concat ?_) ?_ h
            · rintro e (hunknown | ⟨-, first, hmem, hfirst⟩)
              · exact hpath hunknown.1
              · have hnone := mem_paths.mpr ⟨hmem, hfirst⟩
                rw [hpaths] at hnone
                cases hnone
            · have hnil : paths front = [] := hpaths
              simpa [paths, hpath] using hnil
        | some first =>
            cases h
            have hmem : first ∈ paths front := by simp [hpaths]
            exact .offence hfront (.secondPath hpath
              ⟨first, mem_paths.mp hmem⟩)

theorem misuse_of_ofArguments
    (h : Options.ofArguments arguments = .error e) : Misuse arguments e := by
  have hempty : Orderly [] := by simp [Orderly]
  have hmisuse : Misuse ([] ++ arguments) e := misuse_of_scan hempty rfl h
  exact hmisuse

theorem misused_of_error (h : Options.ofArguments arguments = .error e) :
    Misused arguments := by
  by_contra hmisused
  rw [Misused, not_or, not_not, List.length_eq_one_iff] at hmisused
  obtain ⟨hknown, path, hpath⟩ := hmisused
  classical
  have hok : Options.ofArguments arguments =
      .ok ⟨path, decide (∃ argument ∈ arguments, TokenFlag argument)⟩ :=
    ofArguments_eq_ok_iff.mpr
      ⟨fun argument hmem h => hknown ⟨argument, hmem, h⟩, hpath, by simp⟩
  rw [hok] at h
  cases h

theorem exists_options (h : ¬ Misused arguments) :
    ∃ options, Options.ofArguments arguments = .ok options := by
  cases hoptions : Options.ofArguments arguments with
  | error e => exact absurd (misused_of_error hoptions) h
  | ok options => exact ⟨options, rfl⟩

theorem not_misused_of_ok (h : Options.ofArguments arguments = .ok options) :
    ¬ Misused arguments := by
  obtain ⟨hknown, hpath, -⟩ := ofArguments_eq_ok_iff.mp h
  rintro (⟨argument, hmem, hunknown⟩ | hlength)
  · exact hknown argument hmem hunknown
  · exact hlength (by rw [hpath]; rfl)

/-- Options do not depend on the order of the arguments. -/
theorem ofArguments_perm (hperm : arguments'.Perm arguments)
    (h : Options.ofArguments arguments = .ok options) :
    Options.ofArguments arguments' = .ok options := by
  obtain ⟨hknown, hpath, hflag⟩ := ofArguments_eq_ok_iff.mp h
  refine ofArguments_eq_ok_iff.mpr ⟨fun argument hmem =>
    hknown argument (hperm.mem_iff.mp hmem), ?_, ?_⟩
  · have hpaths : (paths arguments').Perm (paths arguments) := hperm.filter _
    rw [hpath] at hpaths
    exact List.perm_singleton.mp hpaths
  · simpa only [hperm.mem_iff] using hflag

end

end Idl.Command
