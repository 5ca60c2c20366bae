import JuliaReleases.CommandLine.Arguments
import JuliaReleases.Proofs.Reading
import JuliaReleases.Proofs.Text.Cutting

/-!
# Which arguments a command accepts

`JuliaReleases.CommandLine.readArguments` goes through the arguments behind the name of a command
from left to right. `JuliaReleases.CommandLine.Accepts` says in one rule for each kind of argument
what a successful pass does, and `JuliaReleases.CommandLine.readArguments_eq_given_iff` that these
are the successful passes. A fact about accepted arguments is then an induction over the rules,
which does not look at the reader again.
-/

namespace JuliaReleases.CommandLine

/-- An option that a command knows, by a name that can be written in front of a value. -/
structure Shape.Knows (shape : Shape) (option : Text) (kind : OptionKind) : Prop where
  lookup : shape.options.lookup option = some kind
  not_mem : '=' ∉ option
  ne_help : option ≠ "help".toList

/-- **The passes over the arguments of a command that succeed**: what was given before them, the
arguments, and what is given behind them. -/
inductive Accepts (shape : Shape) : Given → List Text → Given → Prop
  /-- No argument is left. -/
  | nil (g : Given) : Accepts shape g [] g
  /-- Behind a double hyphen, all arguments go by position. -/
  | rest {g g' : Given} {arguments : List Text} (hadd : g.addArguments shape arguments = .ok g') :
      Accepts shape g ("--".toList :: arguments) g'
  /-- A switch. -/
  | switch {g g₁ g' : Given} {option : Text} {arguments : List Text}
      (hknows : shape.Knows option .switch) (hne : option ≠ [])
      (hadd : g.addOption option .switch [] = .ok g₁) (htail : Accepts shape g₁ arguments g') :
      Accepts shape g (("--".toList ++ option) :: arguments) g'
  /-- An option with its value behind a sign of equality. -/
  | inline {g g₁ g' : Given} {option value : Text} {kind : OptionKind} {arguments : List Text}
      (hknows : shape.Knows option kind) (hkind : kind ≠ .switch)
      (hadd : g.addOption option kind value = .ok g₁) (htail : Accepts shape g₁ arguments g') :
      Accepts shape g (("--".toList ++ option ++ '=' :: value) :: arguments) g'
  /-- An option with its value in the next argument. -/
  | next {g g₁ g' : Given} {option value : Text} {kind : OptionKind} {arguments : List Text}
      (hknows : shape.Knows option kind) (hkind : kind ≠ .switch) (hne : option ≠ [])
      (hvalue : isOption value = false) (hadd : g.addOption option kind value = .ok g₁)
      (htail : Accepts shape g₁ arguments g') :
      Accepts shape g (("--".toList ++ option) :: value :: arguments) g'
  /-- Switches that are written as letters. -/
  | letters {g g₁ g' : Given} {argument : Text} {arguments : List Text}
      (hstart : ¬ "--".toList <+: argument) (hoption : isOption argument = true)
      (hadd : g.addLetters argument (argument.drop 1) = .ok (some g₁))
      (htail : Accepts shape g₁ arguments g') : Accepts shape g (argument :: arguments) g'
  /-- An argument by position. -/
  | argument {g g₁ g' : Given} {argument : Text} {arguments : List Text}
      (hoption : isOption argument = false) (hadd : g.addArgument shape argument = .ok g₁)
      (htail : Accepts shape g₁ arguments g') : Accepts shape g (argument :: arguments) g'

variable {shape : Shape} {option value argument : Text} {arguments : List Text} {kind : OptionKind}
  {g g' : Given}

/-! ### Arguments and their hyphens -/

/-- What starts with two hyphens is an option. -/
theorem not_hyphens_of_isOption_eq_false (h : isOption argument = false) :
    ¬ "--".toList <+: argument := by
  rintro ⟨rest, rfl⟩
  exact absurd h (by simp [isOption])

theorem ne_double_of_not_hyphens (h : ¬ "--".toList <+: argument) : argument ≠ "--".toList :=
  fun heq => h (heq ▸ List.prefix_refl _)

/-! ### The reader, for each kind of argument -/

section Equations

variable (shape g arguments)

theorem readArguments_switch (hknows : shape.Knows option .switch) (hne : option ≠ []) :
    readArguments shape g (("--".toList ++ option) :: arguments) =
      g.addOption option .switch [] >>= fun g => readArguments shape g arguments := by
  rw [readArguments, if_neg (by simpa using hne), Text.dropPrefix?_append]
  simp only [Text.cut_of_not_mem hknows.not_mem, if_neg hknows.ne_help, hknows.lookup]

theorem readArguments_inline (hknows : shape.Knows option kind) (hkind : kind ≠ .switch) :
    readArguments shape g (("--".toList ++ option ++ '=' :: value) :: arguments) =
      g.addOption option kind value >>= fun g => readArguments shape g arguments := by
  rw [readArguments, if_neg (by simp), List.append_assoc, Text.dropPrefix?_append]
  simp only [Text.cut_append_cons hknows.not_mem, if_neg hknows.ne_help, hknows.lookup]

theorem readArguments_next (hknows : shape.Knows option kind) (hkind : kind ≠ .switch)
    (hne : option ≠ []) (hvalue : isOption value = false) :
    readArguments shape g (("--".toList ++ option) :: value :: arguments) =
      g.addOption option kind value >>= fun g => readArguments shape g arguments := by
  rw [readArguments, if_neg (by simpa using hne), Text.dropPrefix?_append]
  simp only [Text.cut_of_not_mem hknows.not_mem, if_neg hknows.ne_help, hknows.lookup]
  cases kind with
  | switch => exact absurd rfl hkind
  | text => simp [hvalue]
  | path => simp [hvalue]

theorem readArguments_letters (hstart : ¬ "--".toList <+: argument)
    (hoption : isOption argument = true) :
    readArguments shape g (argument :: arguments) =
      g.addLetters argument (argument.drop 1) >>= fun g =>
        g.elim (.ok .help) fun g => readArguments shape g arguments := by
  rw [readArguments, if_neg (ne_double_of_not_hyphens hstart),
    Text.dropPrefix?_eq_none_iff.mpr hstart]
  simp only [if_pos hoption]
  congr 1
  funext g
  cases g <;> rfl

theorem readArguments_argument (hoption : isOption argument = false) :
    readArguments shape g (argument :: arguments) =
      g.addArgument shape argument >>= fun g => readArguments shape g arguments := by
  have hstart := not_hyphens_of_isOption_eq_false hoption
  rw [readArguments, if_neg (ne_double_of_not_hyphens hstart),
    Text.dropPrefix?_eq_none_iff.mpr hstart]
  simp [hoption]

end Equations

/-! ### Successful passes -/

theorem readArguments_of_accepts (h : Accepts shape g arguments g') :
    readArguments shape g arguments = .ok (.given g') := by
  induction h with
  | nil g => rfl
  | rest hadd => rw [readArguments, if_pos rfl, hadd]; rfl
  | switch hknows hne hadd _ ih => rw [readArguments_switch _ _ _ hknows hne, hadd]; exact ih
  | inline hknows hkind hadd _ ih => rw [readArguments_inline _ _ _ hknows hkind, hadd]; exact ih
  | next hknows hkind hne hvalue hadd _ ih =>
    rw [readArguments_next _ _ _ hknows hkind hne hvalue, hadd]
    exact ih
  | letters hstart hoption hadd _ ih =>
    rw [readArguments_letters _ _ _ hstart hoption, hadd]
    exact ih
  | argument hoption hadd _ ih => rw [readArguments_argument _ _ _ hoption, hadd]; exact ih

theorem accepts_of_readArguments (h : readArguments shape g arguments = .ok (.given g')) :
    Accepts shape g arguments g' := by
  -- The cases are those of the reader; in the ones left out it refuses, or shows the help.
  fun_induction readArguments shape g arguments generalizing g' with
  | case1 g =>
    obtain rfl : g = g' := by simpa using h
    exact .nil g
  | case2 g arguments =>
    obtain ⟨g₁, hadd, hg₁⟩ := map_eq_ok_iff.mp h
    exact .rest (Reading.given.inj hg₁ ▸ hadd)
  | case7 g argument arguments hdouble long hlong option hhelp hlookup hcut ih =>
    obtain rfl := Text.eq_append_of_dropPrefix? hlong
    obtain ⟨rfl, hmark⟩ := Text.eq_of_cut_eq_none hcut
    obtain ⟨g₁, hadd, htail⟩ := bind_eq_ok_iff.mp h
    exact .switch ⟨hlookup, hmark, hhelp⟩ (by simpa using hdouble) hadd (ih g₁ htail)
  | case8 g argument arguments hdouble long hlong option hhelp kind value hkind hlookup hcut ih =>
    obtain rfl := Text.eq_append_of_dropPrefix? hlong
    obtain ⟨rfl, hmark⟩ := Text.eq_of_cut_eq_some hcut
    obtain ⟨g₁, hadd, htail⟩ := bind_eq_ok_iff.mp h
    rw [← List.append_assoc]
    exact .inline ⟨hlookup, hmark, hhelp⟩ hkind hadd (ih g₁ htail)
  | case11 g argument hdouble long hlong option hhelp kind hkind hlookup value arguments hvalue hcut
      ih =>
    obtain rfl := Text.eq_append_of_dropPrefix? hlong
    obtain ⟨rfl, hmark⟩ := Text.eq_of_cut_eq_none hcut
    obtain ⟨g₁, hadd, htail⟩ := bind_eq_ok_iff.mp h
    exact .next ⟨hlookup, hmark, hhelp⟩ hkind (by simpa using hdouble) (by simpa using hvalue) hadd
      (ih g₁ htail)
  | case12 g argument arguments hdouble hstart hoption ih =>
    obtain ⟨g₁, hadd, htail⟩ := bind_eq_ok_iff.mp h
    cases g₁ with
    | none => exact absurd htail (by simp [pure, Except.pure])
    | some g₁ =>
      exact .letters (Text.dropPrefix?_eq_none_iff.mp hstart) hoption hadd (ih g₁ htail)
  | case13 g argument arguments hdouble hstart hoption ih =>
    obtain ⟨g₁, hadd, htail⟩ := bind_eq_ok_iff.mp h
    exact .argument (by simpa using hoption) hadd (ih g₁ htail)
  | _ => cases h

/-- **The passes that succeed** are those that the rules describe. -/
theorem readArguments_eq_given_iff :
    readArguments shape g arguments = .ok (.given g') ↔ Accepts shape g arguments g' :=
  ⟨accepts_of_readArguments, readArguments_of_accepts⟩

end JuliaReleases.CommandLine
