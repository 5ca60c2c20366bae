import JuliaReleases.Proofs.CommandLine.Options

/-!
# Command lines without an option

What a command line says of one option does not depend on the others. This file takes an option
with a value out of the arguments, wherever it is and in whichever of its two forms
(`JuliaReleases.CommandLine.withoutOption`), and follows what becomes of a successful pass: the
arguments are read as before, except that the option is not given
(`JuliaReleases.CommandLine.Accepts.withoutOption`).

Only accepted arguments have such a law. In `--config --project x`, nobody can say whose value `x`
was meant to be; but such arguments are refused, as no option is the value of another one.
-/

namespace JuliaReleases.CommandLine

/-- **The arguments without an option** that takes a value: the value is behind a sign of equality,
or it is the next argument. Behind a double hyphen there are no options. -/
def withoutOption (name : Text) : List Text → List Text
  | [] => []
  | argument :: arguments =>
    if argument = "--".toList then argument :: arguments
    else if argument = "--".toList ++ name then
      match arguments with
      | [] => []
      | _ :: arguments => withoutOption name arguments
    else if "--".toList ++ name ++ ['='] <+: argument then withoutOption name arguments
    else argument :: withoutOption name arguments

/-- What is given, without an option. -/
def Given.without (g : Given) (name : Text) : Given :=
  { g with options := g.options.filter fun entry => entry.1 ≠ name }

variable {shape : Shape} {name option value argument : Text} {arguments : List Text}
  {kind : OptionKind} {g g' : Given}

/-! ### Taking an option out of the arguments -/

theorem withoutOption_double (name : Text) (arguments : List Text) :
    withoutOption name ("--".toList :: arguments) = "--".toList :: arguments := by
  rw [withoutOption.eq_def]
  exact if_pos rfl

/-- An argument that is not an option with a name stays. -/
theorem withoutOption_cons_of_not_hyphens (name : Text) (arguments : List Text)
    (h : ¬ "--".toList <+: argument) :
    withoutOption name (argument :: arguments) = argument :: withoutOption name arguments := by
  have hname : argument ≠ "--".toList ++ name := fun heq => h (heq ▸ List.prefix_append _ _)
  have hvalue : ¬ "--".toList ++ name ++ ['='] <+: argument := fun hstart =>
    h (((List.prefix_append _ _).trans (List.prefix_append _ _)).trans hstart)
  rw [withoutOption.eq_def]
  simp only [if_neg (ne_double_of_not_hyphens h), if_neg hname, if_neg hvalue]

section Other

variable (hother : option ≠ name) (hoption : '=' ∉ option)
include hother hoption

/-- Another option stays. -/
theorem withoutOption_option (hne : option ≠ []) (arguments : List Text) :
    withoutOption name (("--".toList ++ option) :: arguments) =
      ("--".toList ++ option) :: withoutOption name arguments := by
  have hdouble : "--".toList ++ option ≠ "--".toList := by simpa using hne
  have hname : "--".toList ++ option ≠ "--".toList ++ name := by simpa using hother
  have hvalue : ¬ "--".toList ++ name ++ ['='] <+: "--".toList ++ option := by
    rw [List.append_assoc, List.prefix_append_right_inj]
    exact fun hstart => hoption (hstart.subset (by simp))
  rw [withoutOption.eq_def]
  simp only [if_neg hdouble, if_neg hname, if_neg hvalue]

/-- Another option stays, with the value behind it. -/
theorem withoutOption_inline (hmark : '=' ∉ name) (value : Text) (arguments : List Text) :
    withoutOption name (("--".toList ++ option ++ '=' :: value) :: arguments) =
      ("--".toList ++ option ++ '=' :: value) :: withoutOption name arguments := by
  have hdouble : "--".toList ++ option ++ '=' :: value ≠ "--".toList := by simp
  have hname : "--".toList ++ option ++ '=' :: value ≠ "--".toList ++ name := by
    rw [List.append_assoc, Ne, List.append_cancel_left_eq]
    rintro rfl
    exact hmark (by simp)
  have hvalue : ¬ "--".toList ++ name ++ ['='] <+: "--".toList ++ option ++ '=' :: value := by
    rw [List.append_assoc, List.append_assoc, List.prefix_append_right_inj]
    rintro ⟨rest, hrest⟩
    -- Both sides are cut at their first sign of equality.
    have hcut := congrArg (fun text => (Text.cut '=' text).1) hrest
    simp only [List.append_assoc, List.singleton_append, Text.cut_append_cons hmark,
      Text.cut_append_cons hoption] at hcut
    exact hother hcut.symm
  rw [withoutOption.eq_def]
  simp only [if_neg hdouble, if_neg hname, if_neg hvalue]

end Other

theorem withoutOption_self_inline (name value : Text) (arguments : List Text) :
    withoutOption name (("--".toList ++ name ++ '=' :: value) :: arguments) =
      withoutOption name arguments := by
  have hdouble : "--".toList ++ name ++ '=' :: value ≠ "--".toList := by simp
  have hlonger : "--".toList ++ name ++ '=' :: value ≠ "--".toList ++ name := by simp
  have hvalue : "--".toList ++ name ++ ['='] <+: "--".toList ++ name ++ '=' :: value :=
    ⟨value, by simp⟩
  rw [withoutOption.eq_def]
  simp only [if_neg hdouble, if_neg hlonger, if_pos hvalue]

theorem withoutOption_self_next (hname : name ≠ []) (value : Text) (arguments : List Text) :
    withoutOption name (("--".toList ++ name) :: value :: arguments) =
      withoutOption name arguments := by
  have hdouble : "--".toList ++ name ≠ "--".toList := by simpa using hname
  rw [withoutOption.eq_def]
  simp only [if_neg hdouble, if_true]

/-! ### What is given -/

theorem lookup_without (hother : option ≠ name) :
    (g.without name).options.lookup option = g.options.lookup option := by
  rw [Given.without]
  induction g.options with
  | nil => rfl
  | cons entry entries ih =>
    by_cases hentry : entry.1 = name
    · have hmiss : (option == entry.1) = false := by simpa [hentry] using hother
      rw [List.filter_cons_of_neg (by simpa using hentry), ih, List.lookup_cons, hmiss]
    · rw [List.filter_cons_of_pos (by simpa using hentry), List.lookup_cons, List.lookup_cons, ih]

theorem lookup_without_self : (g.without name).options.lookup name = none := by
  rw [List.lookup_eq_none_iff]
  intro entry hentry
  have hne : entry.1 ≠ name := by simpa using (List.mem_filter.mp hentry).2
  simpa using hne.symm

/-- An option is added if it was not given before and is not an empty path. -/
theorem addOption_eq_ok_iff : g.addOption option kind value = .ok g' ↔
    ¬ (kind = .path ∧ value = []) ∧ g.options.lookup option = none ∧
      { g with options := g.options ++ [(option, value)] } = g' := by
  rw [Given.addOption, ← Option.not_isSome_iff_eq_none]
  split_ifs with hempty hrepeated
  · exact iff_of_false (fun h => nomatch h) fun h => h.1 hempty
  · exact iff_of_false (fun h => nomatch h) fun h => h.2.1 hrepeated
  · rw [Except.ok.injEq, and_iff_right hempty, and_iff_right hrepeated]

/-- Another option is added all the same. -/
theorem addOption_without (hother : option ≠ name)
    (h : g.addOption option kind value = .ok g') :
    (g.without name).addOption option kind value = .ok (g'.without name) := by
  obtain ⟨hempty, hlookup, rfl⟩ := addOption_eq_ok_iff.mp h
  refine addOption_eq_ok_iff.mpr ⟨hempty, (lookup_without hother).trans hlookup, ?_⟩
  simp [Given.without, hother]

/-- The option itself leaves no trace. -/
theorem without_of_addOption (h : g.addOption name kind value = .ok g') :
    g'.without name = g.without name := by
  obtain ⟨-, -, rfl⟩ := addOption_eq_ok_iff.mp h
  simp [Given.without]

theorem addArgument_without (h : g.addArgument shape argument = .ok g') :
    (g.without name).addArgument shape argument = .ok (g'.without name) := by
  unfold Given.addArgument at h ⊢
  split_ifs at h with hargument
  obtain rfl := Except.ok.inj h
  exact if_pos hargument

theorem addArguments_without (h : g.addArguments shape arguments = .ok g') :
    (g.without name).addArguments shape arguments = .ok (g'.without name) := by
  rw [Given.addArguments] at h ⊢
  induction arguments generalizing g with
  | nil =>
    obtain rfl := Except.ok.inj h
    rfl
  | cons argument arguments ih =>
    rw [List.foldlM_cons] at h ⊢
    obtain ⟨g₁, hadd, hrest⟩ := bind_eq_ok_iff.mp h
    exact bind_eq_ok_iff.mpr ⟨_, addArgument_without hadd, ih hrest⟩

theorem addLetters_without (hverbose : verbose ≠ name) {letters : Text}
    (h : g.addLetters argument letters = .ok (some g')) :
    (g.without name).addLetters argument letters = .ok (some (g'.without name)) := by
  fun_induction Given.addLetters argument g letters with
  | case1 g =>
    obtain rfl : g = g' := by simpa using h
    rfl
  | case3 g letters ih =>
    obtain ⟨g₁, hadd, hrest⟩ := bind_eq_ok_iff.mp h
    rw [Given.addLetters]
    exact bind_eq_ok_iff.mpr ⟨_, addOption_without hverbose hadd, ih g₁ hrest⟩
  | _ => cases h

/-! ### Successful passes -/

/-- **What is accepted is accepted without an option**, and nothing else is lost. -/
theorem Accepts.withoutOption (hname : shape.Knows name kind) (hkind : kind ≠ .switch)
    (hne : name ≠ []) (hverbose : verbose ≠ name) (h : Accepts shape g arguments g') :
    Accepts shape (g.without name) (withoutOption name arguments) (g'.without name) := by
  induction h with
  | nil g => exact .nil _
  | rest hadd =>
    rw [withoutOption_double]
    exact .rest (addArguments_without hadd)
  | @switch _ _ _ option _ hknows hoption hadd _ ih =>
    have hother : option ≠ name := by
      rintro rfl
      exact hkind (Option.some.inj (hname.lookup.symm.trans hknows.lookup))
    rw [withoutOption_option hother hknows.not_mem hoption]
    exact .switch hknows hoption (addOption_without hother hadd) ih
  | @inline _ _ _ option _ _ _ hknows hvalued hadd _ ih =>
    by_cases hother : option = name
    · subst hother
      rwa [withoutOption_self_inline, ← without_of_addOption hadd]
    · rw [withoutOption_inline hother hknows.not_mem hname.not_mem]
      exact .inline hknows hvalued (addOption_without hother hadd) ih
  | @next _ _ _ option _ _ _ hknows hvalued hoption hvalue hadd _ ih =>
    by_cases hother : option = name
    · subst hother
      rwa [withoutOption_self_next hne, ← without_of_addOption hadd]
    · rw [withoutOption_option hother hknows.not_mem hoption,
        withoutOption_cons_of_not_hyphens _ _ (not_hyphens_of_isOption_eq_false hvalue)]
      exact .next hknows hvalued hoption hvalue (addOption_without hother hadd) ih
  | letters hstart hoption hadd _ ih =>
    rw [withoutOption_cons_of_not_hyphens _ _ hstart]
    exact .letters hstart hoption (addLetters_without hverbose hadd) ih
  | argument hoption hadd _ ih =>
    rw [withoutOption_cons_of_not_hyphens _ _ (not_hyphens_of_isOption_eq_false hoption)]
    exact .argument hoption (addArgument_without hadd) ih

end JuliaReleases.CommandLine
