import JuliaReleases.Project.Location
import JuliaReleases.Proofs.Files.Tree

/-!
# Where a project file is found

A project is named by the first of three sources that names one (`JuliaReleases.Project.Named`), and
its file is the first of three places that has one (`JuliaReleases.Project.HasFile`). The two
choices do not mix: what the sources behind the first one say is never looked at, not even when the
project has no file.

So the outcome depends on the path that names the project, and on which of the three places are
regular files (`JuliaReleases.Project.locate_congr`). In a tree of files, those are the files at the
ends of three paths, and no other file matters (`JuliaReleases.FileTree.isFile_surroundings_congr`).
-/

namespace JuliaReleases.Project

variable {s s' : Surroundings} {project project' : Option Text} {path path' : Text}
  {e : ProjectError}

/-- **Which path names the project.** -/
inductive Named (s : Surroundings) : Option Text → Text → Prop
  /-- The one that is given. -/
  | given {path : Text} : Named s (some path) path
  /-- Else the one in the environment, unless it is empty. -/
  | environment {path : Text} : s.project = some path → path ≠ [] → Named s none path
  /-- Else the current directory. -/
  | directory : (∀ path, s.project = some path → path = []) → Named s none s.directory

/-- **Which file belongs to the project** that a path names. -/
inductive HasFile (s : Surroundings) (path : Text) : Text → Prop
  /-- The path leads to a file. -/
  | itself : s.isFile path = true → HasFile s path path
  /-- Else the file with the preferred name that lies below the path. -/
  | preferred : s.isFile path = false → s.isFile (joinPath path "JuliaProject.toml".toList) = true →
      HasFile s path (joinPath path "JuliaProject.toml".toList)
  /-- Else the file with the other name. -/
  | other : s.isFile path = false → s.isFile (joinPath path "JuliaProject.toml".toList) = false →
      s.isFile (joinPath path "Project.toml".toList) = true →
      HasFile s path (joinPath path "Project.toml".toList)

theorem base_of_named (h : Named s project path) : base s project = path := by
  cases h with
  | given => rfl
  | environment hpath hne => simp [base, hpath, hne, Option.filter]
  | directory hempty =>
    cases hproject : s.project with
    | none => simp [base, hproject]
    | some path => simp [base, hproject, hempty path hproject, Option.filter]

theorem exists_named (s : Surroundings) (project : Option Text) :
    ∃ path, Named s project path := by
  cases project with
  | some path => exact ⟨path, .given⟩
  | none =>
    by_cases henvironment : ∃ path, s.project = some path ∧ path ≠ []
    · obtain ⟨path, hpath, hne⟩ := henvironment
      exact ⟨path, .environment hpath hne⟩
    · exact ⟨s.directory, .directory (by simpa using henvironment)⟩

theorem find?_candidates_eq_some_iff :
    (candidates path).find? s.isFile = some path' ↔ HasFile s path path' := by
  constructor
  · intro h
    simp only [candidates, fileNames, List.map_cons, List.map_nil, List.find?_cons] at h
    split at h
    · next hfile =>
      obtain rfl := Option.some.inj h
      exact .itself hfile
    · next hnone =>
      split at h
      · next hfile =>
        obtain rfl := Option.some.inj h
        exact .preferred hnone hfile
      · next hnone' =>
        split at h
        · next hfile =>
          obtain rfl := Option.some.inj h
          exact .other hnone hnone' hfile
        · exact absurd h (by simp)
  · rintro (hfile | ⟨hnone, hfile⟩ | ⟨hnone, hnone', hfile⟩) <;>
      simp only [candidates, fileNames, List.map_cons, List.map_nil, List.find?_cons, *]

/-- **Where a project file is found.** -/
theorem locate_eq_ok_iff (h : Named s project path) :
    locate s project = .ok path' ↔ HasFile s path path' := by
  rw [locate, base_of_named h, ← find?_candidates_eq_some_iff]
  cases (candidates path).find? s.isFile <;> simp

/-- **When no project file is found.** -/
theorem locate_eq_error_iff (h : Named s project path) : locate s project = .error e ↔
    e = .notFound path ∧ ∀ place ∈ candidates path, s.isFile place = false := by
  have hnone : (candidates path).find? s.isFile = none ↔
      ∀ place ∈ candidates path, s.isFile place = false := by
    rw [List.find?_eq_none]
    simp
  rw [locate, base_of_named h, ← hnone]
  cases (candidates path).find? s.isFile <;> simp [eq_comm]

/-- **Nothing else matters**: if the same path names the project, and the same of the three places
are files, the outcome is the same. -/
theorem locate_congr (h : Named s project path) (h' : Named s' project' path)
    (hfile : ∀ place ∈ candidates path, s.isFile place = s'.isFile place) :
    locate s project = locate s' project' := by
  have hfind : (candidates path).find? s.isFile = (candidates path).find? s'.isFile := by
    simp only [candidates, fileNames, List.map_cons, List.map_nil, List.forall_mem_cons] at hfile
    obtain ⟨hitself, hpreferred, hother, -⟩ := hfile
    simp only [candidates, fileNames, List.map_cons, List.map_nil, List.find?_cons,
      List.find?_nil, hitself, hpreferred, hother]
  rw [locate, locate, base_of_named h, base_of_named h', hfind]

/-- **The location of a project file honours its priorities.** Let a path name the project: the one
that is given, else the one in the environment unless it is empty, else the current directory.

* The project file is the first regular file of the path itself, `JuliaProject.toml` below it and
  `Project.toml` below it. There is none, and the error repeats the path, exactly if none of the
  three is a regular file.
* Nothing else matters. The sources behind the one that names the project may change, and so may
  every file that is not one of these three.
* In particular, a given project without a project file is an error, whatever the other sources
  name.
* In a tree of files, two trees with the same directories have the same project file, if they agree
  on whether the three paths lead to files. -/
theorem location_honours_priority :
    (∀ s project, ∃ path, Named s project path ∧
      (∀ file, locate s project = .ok file ↔ HasFile s path file) ∧
      ∀ e, locate s project = .error e ↔
        e = .notFound path ∧ ∀ place ∈ candidates path, s.isFile place = false) ∧
    (∀ s s' project project' path, Named s project path → Named s' project' path →
      (∀ place ∈ candidates path, s.isFile place = s'.isFile place) →
        locate s project = locate s' project') ∧
    (∀ (s : Surroundings) (given directory : Text) (environment : Option Text),
      locate { s with project := environment, directory } (some given) = locate s (some given) ∧
      ((∀ place ∈ candidates given, s.isFile place = false) →
        locate { s with project := environment, directory } (some given) =
          .error (.notFound given))) ∧
    (∀ (s : Surroundings) (named directory : Text), s.project = some named → named ≠ [] →
      locate { s with directory } none = locate s none) ∧
    ∀ (tree tree' : FileTree) directory environment project path,
      Named (tree.surroundings directory environment) project path →
      (∀ loc, tree.IsDirectoryAt loc ↔ tree'.IsDirectoryAt loc) →
      (∀ place ∈ candidates path, ∀ dest, tree.LeadsTo directory place dest →
        (tree.IsFileAt dest ↔ tree'.IsFileAt dest)) →
      locate (tree.surroundings directory environment) project =
        locate (tree'.surroundings directory environment) project := by
  refine ⟨fun s project => ?_, fun s s' project project' path => locate_congr, ?_, ?_, ?_⟩
  · obtain ⟨path, hpath⟩ := exists_named s project
    exact ⟨path, hpath, fun file => locate_eq_ok_iff hpath, fun e => locate_eq_error_iff hpath⟩
  · intro s given directory environment
    exact ⟨locate_congr .given .given fun _ _ => rfl,
      fun hnone => (locate_eq_error_iff .given).mpr ⟨rfl, hnone⟩⟩
  · intro s named directory hnamed hne
    exact locate_congr (.environment hnamed hne) (.environment hnamed hne) fun _ _ => rfl
  · intro tree tree' directory environment project path hpath hdirectory hfile
    have hpath' : Named (tree'.surroundings directory environment) project path := by
      cases hpath with
      | given => exact .given
      | environment hproject hne => exact .environment hproject hne
      | directory hempty => exact .directory hempty
    exact locate_congr hpath hpath' fun place hplace =>
      FileTree.isFile_surroundings_congr hdirectory (hfile place hplace)

/-- An empty path in the environment; a directory that bears the name of a project file; a project
without a file; and a tree that changes at another place and in the bytes of its project file. -/
theorem location_honours_priority_tree :
    let shadowed : FileTree := .directory
      [("JuliaProject.toml".toList, .directory [("JuliaProject.toml".toList, .file .empty)]),
        ("Project.toml".toList, .file .empty)]
    let s := shadowed.surroundings "/w".toList (some "JuliaProject.toml".toList)
    let tree : FileTree := .directory [("Project.toml".toList, .file .empty)]
    let tree' : FileTree := .directory
      [("Manifest.toml".toList, .file .empty), ("Project.toml".toList, .file ⟨#[10]⟩)]
    locate (shadowed.surroundings "/w".toList (some [])) none = locate s (some "/w".toList) ∧
    locate { s with project := some "/w".toList, directory := "/w".toList } (some "q".toList) =
      .error (.notFound "q".toList) ∧
    locate { s with directory := "/v".toList } none = locate s none ∧
    locate (tree.surroundings "/w".toList none) none =
      locate (tree'.surroundings "/w".toList none) none := by
  intro shadowed s tree tree'
  obtain ⟨-, hsame, hgiven, henvironment, htree⟩ := location_honours_priority
  refine ⟨?_, ?_, ?_, ?_⟩
  · exact hsame _ s none (some "/w".toList) "/w".toList
      (.directory fun path hpath => (Option.some.inj hpath).symm) .given fun _ _ => rfl
  · exact (hgiven s "q".toList "/w".toList (some "/w".toList)).2 (by decide)
  · exact henvironment s "JuliaProject.toml".toList "/v".toList rfl (by decide)
  · have hdirectory : ∀ loc, tree.IsDirectoryAt loc ↔ loc = [] := fun loc =>
      FileTree.isDirectoryAt_iff_eq_nil (by simp)
    have hdirectory' : ∀ loc, tree'.IsDirectoryAt loc ↔ loc = [] := fun loc =>
      FileTree.isDirectoryAt_iff_eq_nil (by simp)
    refine htree tree tree' "/w".toList none none "/w".toList (.directory fun _ => nofun)
      (fun loc => (hdirectory loc).trans (hdirectory' loc).symm) ?_
    -- The three paths lead to the root and to the places of the two names in it.
    have hroot : tree.IsDirectoryAt [] := (hdirectory []).mpr rfl
    have hdown : ∀ name dest, (name = "JuliaProject.toml".toList ∨ name = "Project.toml".toList) →
        tree.LeadsTo "/w".toList (joinPath "/w".toList name) dest → dest = [name] := by
      rintro name dest (rfl | rfl) ⟨parts, hparts, hleads⟩ <;>
      · obtain rfl := Option.some.inj hparts
        cases (FileTree.leads_down_iff hroot (by decide) (by decide)).mp hleads
        rfl
    intro place hplace dest hdest
    simp only [candidates, fileNames, List.map_cons, List.map_nil, List.mem_cons,
      List.not_mem_nil, or_false] at hplace
    obtain rfl | rfl | rfl := hplace
    · obtain ⟨parts, hparts, hleads⟩ := hdest
      obtain rfl := Option.some.inj hparts
      cases hleads
      simp [FileTree.IsFileAt, FileTree.descend?, tree, tree']
    · rw [hdown _ dest (.inl rfl) hdest]
      have hnone : tree.descend? ["JuliaProject.toml".toList] = none := rfl
      have hnone' : tree'.descend? ["JuliaProject.toml".toList] = none := rfl
      simp only [FileTree.IsFileAt, hnone, hnone']
    · rw [hdown _ dest (.inr rfl) hdest]
      exact iff_of_true ⟨_, rfl⟩ ⟨_, rfl⟩

end JuliaReleases.Project
