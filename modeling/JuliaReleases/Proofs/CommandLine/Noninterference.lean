import JuliaReleases.Proofs.CommandLine.Omission
import JuliaReleases.Proofs.Project.Usable

/-!
# Which requests look at the project

A request for the least allowed release is answered from the compat range of a project, so its
answer depends on the project that is named, on the environment and on the files of the project. No
other request does (`JuliaReleases.only_min_looks_at_project`): two command lines that say the same
except for the project have the same outcome in any two surroundings in which the files that they
name, the settings and the catalog, are the same.

The proof goes along the stages of a run. Without the project, both command lines are read as one
command (`JuliaReleases.CommandLine.read_withoutOption`), and a command that answers another request
looks at nothing but its own two files (`JuliaReleases.CommandLine.runResolve_congr`).
-/

namespace JuliaReleases

namespace CommandLine

variable {s s' : Surroundings} {name request : Text} {arguments : List Text}
  {reader : Project.EntryReader} {releases project config : Option Text}
  {includePrerelease : Bool} {g : Given}

/-! ### Commands that answer a request -/

theorem knows_project : resolveShape.Knows "project".toList .path :=
  ⟨by decide, by decide, by decide⟩

/-- What has to be given for a request to be read. -/
structure Given.Asks (g : Given) (request : Text) (releases project config : Option Text)
    (includePrerelease : Bool) : Prop where
  argument : g.argument = some request
  releases : g.value? "releases" = releases
  project : g.value? "project" = project
  config : g.value? "config" = config
  includePrerelease : g.has "include-prerelease" = includePrerelease

/-- No other command answers a request. -/
theorem asks_of_make {shape : Shape} {make : Given → Except UsageError Command}
    (hmem : (shape, make) ∈ commands)
    (h : make g = .ok (.resolve request releases project config includePrerelease)) :
    shape = resolveShape ∧ g.Asks request releases project config includePrerelease := by
  simp only [commands, List.mem_cons, Prod.mk.injEq, List.not_mem_nil, or_false] at hmem
  rcases hmem with ⟨rfl, rfl⟩ | ⟨rfl, rfl⟩ | ⟨rfl, rfl⟩ | ⟨rfl, rfl⟩
  · obtain ⟨argument, hargument, h⟩ := bind_eq_ok_iff.mp h
    obtain ⟨rfl, rfl, rfl, rfl, rfl⟩ := Command.resolve.inj (Except.ok.inj h)
    unfold Given.requireArgument at hargument
    split at hargument
    · next given hgiven =>
      obtain rfl := Except.ok.inj hargument
      exact ⟨rfl, hgiven, rfl, rfl, rfl, rfl⟩
    · cases hargument
  · obtain ⟨specifier, -, h⟩ := bind_eq_ok_iff.mp h
    cases h
  · cases h
  · obtain ⟨version, -, h⟩ := bind_eq_ok_iff.mp h
    obtain ⟨path, -, h⟩ := bind_eq_ok_iff.mp h
    obtain ⟨os, -, h⟩ := bind_eq_ok_iff.mp h
    obtain ⟨arch, -, h⟩ := bind_eq_ok_iff.mp h
    cases h

theorem readCommand_of_asks (hread : Accepts resolveShape {} arguments g)
    (h : g.Asks request releases project config includePrerelease) :
    readCommand resolveShape.name arguments =
      .ok (.resolve request releases project config includePrerelease) := by
  obtain ⟨hargument, rfl, rfl, rfl, rfl⟩ := h
  rw [readCommand.eq_def]
  refine bind_eq_ok_iff.mpr ⟨.given g, readArguments_eq_given_iff.mpr hread, ?_⟩
  exact bind_eq_ok_iff.mpr ⟨request, by rw [Given.requireArgument, hargument], rfl⟩

/-- **A request is read** from the arguments behind the name of its command. -/
theorem readCommand_eq_resolve_iff :
    readCommand name arguments = .ok (.resolve request releases project config includePrerelease) ↔
      name = resolveShape.name ∧ ∃ g, Accepts resolveShape {} arguments g ∧
        g.Asks request releases project config includePrerelease := by
  constructor
  · intro h
    unfold readCommand at h
    split at h
    · next shape make hfind =>
      obtain ⟨reading, hreading, h⟩ := bind_eq_ok_iff.mp h
      cases reading with
      | given g =>
        obtain ⟨rfl, hasks⟩ := asks_of_make (List.mem_of_find?_eq_some hfind) h
        have hname : resolveShape.name = name := by simpa using List.find?_some hfind
        exact ⟨hname.symm, g, readArguments_eq_given_iff.mp hreading, hasks⟩
      | help => cases h
    · split_ifs at h
      split at h
      · cases h
      · split_ifs at h
        cases h
      · cases h
  · rintro ⟨rfl, g, hread, hasks⟩
    exact readCommand_of_asks hread hasks

/-! ### Without the project -/

theorem Given.Asks.without (h : g.Asks request releases project config includePrerelease) :
    (g.without "project".toList).Asks request releases none config includePrerelease where
  argument := h.argument
  releases := (lookup_without (by decide)).trans h.releases
  project := lookup_without_self
  config := (lookup_without (by decide)).trans h.config
  includePrerelease :=
    (congrArg Option.isSome (lookup_without (by decide))).trans h.includePrerelease

theorem readCommand_withoutOption
    (h : readCommand name arguments =
      .ok (.resolve request releases project config includePrerelease)) :
    readCommand name (withoutOption "project".toList arguments) =
      .ok (.resolve request releases none config includePrerelease) := by
  obtain ⟨rfl, g, hread, hasks⟩ := readCommand_eq_resolve_iff.mp h
  have hwithout := hread.withoutOption knows_project (by decide) (by decide) (by decide)
  exact readCommand_of_asks hwithout hasks.without

/-- Letters in front of a command ask for no request. -/
theorem ne_resolve_of_readLetters {argument letters : Text} {command : Command}
    (h : readLetters argument g letters = .ok (.inr command)) :
    command ≠ .resolve request releases project config includePrerelease := by
  fun_induction readLetters argument g letters with
  | case2 | case3 =>
    obtain rfl := Sum.inr.inj (Except.ok.inj h)
    exact fun heq => nomatch heq
  | case4 g letters ih =>
    obtain ⟨g₁, -, hrest⟩ := bind_eq_ok_iff.mp h
    exact ih g₁ hrest
  | _ => cases h

/-- **A command line that answers a request does so without the project.** -/
theorem readFrom_withoutOption
    (h : readFrom g arguments = .ok (.resolve request releases project config includePrerelease)) :
    readFrom g (withoutOption "project".toList arguments) =
      .ok (.resolve request releases none config includePrerelease) := by
  -- What stands in front of a command is kept, as the project cannot be named there.
  fun_induction readFrom g arguments with
  | case4 g arguments hversion hhelp ih =>
    obtain ⟨g₁, hadd, hrest⟩ := bind_eq_ok_iff.mp h
    have hkept : withoutOption "project".toList ("--verbose".toList :: arguments) =
        "--verbose".toList :: withoutOption "project".toList arguments :=
      @withoutOption_option _ "verbose".toList (by decide) (by decide) (by decide) arguments
    rw [hkept]
    simp only [readFrom, if_neg hversion, if_neg hhelp, if_true]
    exact bind_eq_ok_iff.mpr ⟨g₁, hadd, ih g₁ hrest⟩
  | case8 g argument arguments hversion hhelp hverbose hdouble hlong hoption ih =>
    rw [withoutOption_cons_of_not_hyphens _ _ (by rwa [← List.isPrefixOf_iff_prefix])]
    simp only [readFrom, if_neg hversion, if_neg hhelp, if_neg hverbose, if_neg hdouble,
      if_neg hlong, if_pos hoption]
    obtain ⟨reading, hletters, h⟩ := bind_eq_ok_iff.mp h
    refine bind_eq_ok_iff.mpr ⟨reading, hletters, ?_⟩
    cases reading with
    | inl g₁ => exact ih g₁ h
    | inr command => exact absurd (Except.ok.inj h) (ne_resolve_of_readLetters hletters)
  | case9 g argument arguments hversion hhelp hverbose hdouble hlong hoption =>
    rw [withoutOption_cons_of_not_hyphens _ _ (by rwa [← List.isPrefixOf_iff_prefix])]
    simp only [readFrom, if_neg hversion, if_neg hhelp, if_neg hverbose, if_neg hdouble,
      if_neg hlong, if_neg hoption]
    exact readCommand_withoutOption h
  | _ => cases h

theorem read_withoutOption
    (h : read arguments = .ok (.resolve request releases project config includePrerelease)) :
    read (withoutOption "project".toList arguments) =
      .ok (.resolve request releases none config includePrerelease) :=
  readFrom_withoutOption h

/-! ### Files -/

theorem read_congr {path : Text} (h : s.node path = s'.node path) : s.read path = s'.read path :=
  congrArg Node.text h

theorem loadSettings_congr (h : ∀ path ∈ config, s.node path = s'.node path) :
    loadSettings s config = loadSettings s' config := by
  cases config with
  | none => rfl
  | some path => rw [loadSettings, loadSettings, read_congr (h path rfl)]

theorem loadCatalog_congr {path : Text} (h : s.node path = s'.node path) :
    loadCatalog s path = loadCatalog s' path := by
  rw [loadCatalog, loadCatalog, read_congr h]

/-- Other requests do not depend on a project. -/
theorem loadCompat_of_ne_min {request : Request} (h : request ≠ .min) :
    loadCompat s project request reader = .ok none := by
  cases request with
  | min => exact absurd rfl h
  | _ => rfl

/-- **Other requests depend on the settings and on the catalog only.** -/
theorem runResolve_congr (policy : PrereleasePolicy) (project project' : Option Text)
    (reader reader' : Project.EntryReader) (hmin : Request.read request ≠ .min)
    (hconfig : ∀ path ∈ config, s.node path = s'.node path)
    (hreleases : ∀ path ∈ releases, s.node path = s'.node path) :
    runResolve s request releases project config policy reader =
      runResolve s' request releases project' config policy reader' := by
  have hcatalog : releases.elim (.ok {}) (loadCatalog s) =
      releases.elim (.ok {}) (loadCatalog s') := by
    cases releases with
    | none => rfl
    | some path => exact loadCatalog_congr (hreleases path rfl)
  rw [runResolve_eq, runResolve_eq, loadSettings_congr hconfig, hcatalog,
    loadCompat_of_ne_min hmin, loadCompat_of_ne_min hmin]

end CommandLine

/-! ### Runs -/

open CommandLine

/-- **Only a request for the least release looks at the project.** Take two command lines that
answer the same request, and that are the same without the project. If the request is not for the
least release, they have the same outcome in all surroundings in which the files named for the
settings and for the catalog are the same, whatever way the entries of projects are read. -/
theorem only_min_looks_at_project {s s' : Surroundings} {arguments arguments' : List Text}
    {request request' : Text} {releases releases' project project' config config' : Option Text}
    {includePrerelease includePrerelease' : Bool}
    (hread : read arguments = .ok (.resolve request releases project config includePrerelease))
    (hread' : read arguments' =
      .ok (.resolve request' releases' project' config' includePrerelease'))
    (hsame : withoutOption "project".toList arguments = withoutOption "project".toList arguments')
    (hmin : Request.read request ≠ .min)
    (hconfig : ∀ path ∈ config, s.node path = s'.node path)
    (hreleases : ∀ path ∈ releases, s.node path = s'.node path)
    (reader reader' : Project.EntryReader) :
    run s arguments reader = run s' arguments' reader' := by
  have hcommand := (hsame ▸ read_withoutOption hread).symm.trans (read_withoutOption hread')
  obtain ⟨rfl, rfl, -, rfl, rfl⟩ := Command.resolve.inj (Except.ok.inj hcommand)
  have hrun := runResolve_congr (if includePrerelease then .included else .named) project project'
    reader reader' hmin hconfig hreleases
  simp only [run, hread, hread', runCommand, hrun]

theorem only_min_looks_at_project_lts :
    let catalog : Catalog := ⟨[("v1.10.2".toList, {})]⟩
    let tree (path : Text) : Node :=
      if path = "a.json".toList then .file (String.ofList catalog.write).toUTF8 else .missing
    let s : Surroundings :=
      { directory := "/home".toList, project := some "b".toList, node := tree }
    let s' : Surroundings :=
      { directory := "/home".toList, project := none,
        node := fun path => if path = "c/Project.toml".toList then .directory else tree path }
    let arguments := ["resolve".toList, "--project=c".toList, "lts".toList, "--releases".toList,
      "a.json".toList]
    let arguments' := ["resolve".toList, "lts".toList, "--releases".toList, "a.json".toList]
    read arguments =
        .ok (.resolve "lts".toList (some "a.json".toList) (some "c".toList) none false) ∧
      run s arguments = { code := 0, output := "1.10.2\n".toList } ∧
      run s arguments = run s' arguments' := by
  intro catalog tree s s' arguments arguments'
  have hread : read arguments =
    .ok (.resolve "lts".toList (some "a.json".toList) (some "c".toList) none false) := by
    decide +kernel
  have hrun : run s arguments = { code := 0, output := "1.10.2\n".toList } := by decide +kernel
  refine ⟨hread, hrun, ?_⟩
  have hread' : read arguments' =
    .ok (.resolve "lts".toList (some "a.json".toList) none none false) := by decide +kernel
  refine only_min_looks_at_project hread hread' (by decide +kernel) (by decide +kernel)
    (by simp) ?_ _ _
  intro path hpath
  obtain rfl := Option.some.inj hpath
  rfl

end JuliaReleases
