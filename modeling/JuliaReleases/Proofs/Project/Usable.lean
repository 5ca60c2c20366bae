import JuliaReleases.CommandLine.Run
import JuliaReleases.Proofs.CompatRange.Composite

/-!
# The compat range of a project can be used

Between the file of a project and the answer to a request for the least allowed release, the compat
range is looked at three times: a blank entry is refused, a specifier without clauses is refused,
and a range without arms is refused. This file shows that the last of these never happens, since a
compat range that a project states always has an arm
(`JuliaReleases.Project.arms_ne_nil_of_rangeOfEntries`), and that every arm, and all of them
together, are ranges. So a request for the least release can end in each of the ways that
`JuliaReleases.CommandLine.LeastFault` lists, but not for want of a range
(`JuliaReleases.project_range_is_usable`).

Nothing is asked of the entries, and so nothing of the text that they are read from: all of this
holds for every `JuliaReleases.Project.EntryReader`, whatever it makes of texts that are no TOML.
-/

namespace JuliaReleases

namespace Project

variable {es : List CompatEntry} {c : CompatRange}

/-- A compat range is the one of a specifier, or there is no entry for Julia. -/
theorem any_or_ofSpecifier_of_rangeOfEntries (h : rangeOfEntries es = .ok c) :
    c = .any ∨ ∃ specifier, CompatRange.ofSpecifier specifier = .ok c := by
  unfold rangeOfEntries at h
  split at h
  · exact .inl (Except.ok.inj h).symm
  · split_ifs at h
    exact .inr ⟨_, mapError_eq_ok_iff.mp h⟩

theorem obtained_of_rangeOfEntries (h : rangeOfEntries es = .ok c) : c.Obtained := by
  rcases any_or_ofSpecifier_of_rangeOfEntries h with rfl | ⟨specifier, hspecifier⟩
  · exact .any
  · exact .ofSpecifier hspecifier

theorem arms_ne_nil_of_rangeOfEntries (h : rangeOfEntries es = .ok c) : c.arms ≠ [] := by
  rcases any_or_ofSpecifier_of_rangeOfEntries h with rfl | ⟨specifier, hspecifier⟩
  · exact List.cons_ne_nil _ _
  · exact CompatRange.arms_ne_nil_of_ofSpecifier hspecifier

/-- No arm is blank, since a blank clause has none. -/
theorem trim_ne_nil_of_mem_arms (h : rangeOfEntries es = .ok c) {arm : Text}
    (harm : arm ∈ c.arms) : Text.trim arm ≠ [] := by
  rcases any_or_ofSpecifier_of_rangeOfEntries h with rfl | ⟨specifier, hspecifier⟩
  · obtain rfl : arm = ['*'] := List.mem_singleton.mp harm
    decide
  · intro hblank
    have harm := (CompatRange.toArm_of_mem_arms hspecifier harm).2
    exact (guard_eq_ok_iff.mp harm).1 hblank

end Project

/-! ### Requests for the least release -/

namespace CommandLine

open Project (EntryReader)

variable {s : Surroundings} {reader : EntryReader} {request : Text}
  {releases project config : Option Text} {policy : PrereleasePolicy} {e : CommandError}

/-- **Why a request for the least allowed release fails.** -/
inductive LeastFault (request : Text) : CommandError → Prop
  /-- The settings cannot be loaded. -/
  | settings (path : Text) (cause : Cause) : LeastFault request (.settings path cause)
  /-- The file of the catalog cannot be read. -/
  | catalogFile (path : Text) (fault : FileFault) : LeastFault request (.catalogFile path fault)
  /-- The catalog is no catalog document. -/
  | catalogDocument (text : Text) (fault : Json.Fault) :
    LeastFault request (.catalogDocument text fault)
  /-- There is no project file, or none that states a range. -/
  | project (e : ProjectError) : LeastFault request (.project e)
  /-- No release is allowed. -/
  | noMatch : LeastFault request (.resolve (.noMatch request))

theorem loadSettings_eq_error (h : loadSettings s config = .error e) :
    LeastFault request e := by
  unfold loadSettings at h
  split at h
  · exact absurd h (by simp)
  · split at h
    · exact Except.error.inj h ▸ .settings _ _
    · obtain ⟨fault, -, rfl⟩ := mapError_eq_error_iff.mp h
      exact .settings _ _

theorem loadCatalog_eq_error {path : Text} (h : loadCatalog s path = .error e) :
    LeastFault request e := by
  unfold loadCatalog at h
  split at h
  · exact Except.error.inj h ▸ .catalogFile _ _
  · obtain ⟨fault, -, rfl⟩ := mapError_eq_error_iff.mp h
    exact .catalogDocument _ _

/-- A request for the least release gets a compat range with arms. -/
theorem exists_arms_of_loadCompat {compat : Option CompatRange}
    (h : loadCompat s project .min reader = .ok compat) :
    ∃ c, compat = some c ∧ c.arms ≠ [] := by
  obtain ⟨c, hc, rfl⟩ := map_eq_ok_iff.mp h
  obtain ⟨path, -, hpath⟩ := bind_eq_ok_iff.mp (mapError_eq_ok_iff.mp hc)
  unfold Project.compatRangeAt at hpath
  split at hpath
  · obtain ⟨es, -, hrange⟩ := bind_eq_ok_iff.mp hpath
    exact ⟨c, rfl, Project.arms_ne_nil_of_rangeOfEntries hrange⟩
  · exact absurd hpath (by simp)

/-- With a compat range that has arms, the least release is found, or there is none. -/
theorem resolve_min_cases {settings : Settings} {tags : List Text} {c : CompatRange}
    (hmin : Request.read request = .min) (hc : c.arms ≠ []) :
    (∃ v : Version, resolve settings tags request policy (some c) = .ok v.write) ∨
      resolve settings tags request policy (some c) = .error (.noMatch request) := by
  have hempty : c.isEmpty = false := by simpa [CompatRange.isEmpty] using hc
  have hresolve : resolve settings tags request policy (some c) =
      answer request (Resolution.least? policy c (Tag.versions tags)) := by
    simp [resolve, hmin, hempty]
  rw [hresolve]
  cases Resolution.least? policy c (Tag.versions tags) with
  | none => exact .inr rfl
  | some v => exact .inl ⟨v, rfl⟩

/-- The stages of a request, one after the other. -/
theorem runResolve_eq : runResolve s request releases project config policy reader = (do
    let settings ← loadSettings s config
    let catalog ← releases.elim (.ok {}) (loadCatalog s)
    let compat ← loadCompat s project (Request.read request) reader
    (resolve settings catalog.versions request policy compat).mapError .resolve) := by
  cases releases <;> rfl

/-- **A request for the least release ends with a version or with one of the faults.** -/
theorem runResolve_min (hmin : Request.read request = .min) :
    (∃ v : Version, runResolve s request releases project config policy reader = .ok v.write) ∨
      ∃ e, runResolve s request releases project config policy reader = .error e ∧
        LeastFault request e := by
  rw [runResolve_eq, hmin]
  cases hsettings : loadSettings s config with
  | error e => exact .inr ⟨e, rfl, loadSettings_eq_error hsettings⟩
  | ok settings =>
    cases hcatalog : releases.elim (.ok {}) (loadCatalog s) with
    | error e =>
      cases releases with
      | none => cases hcatalog
      | some path => exact .inr ⟨e, rfl, loadCatalog_eq_error hcatalog⟩
    | ok catalog =>
      cases hcompat : loadCompat s project .min reader with
      | error e =>
        obtain ⟨e', -, rfl⟩ := mapError_eq_error_iff.mp (map_eq_error_iff.mp hcompat)
        exact .inr ⟨_, rfl, .project e'⟩
      | ok compat =>
        obtain ⟨c, rfl, hc⟩ := exists_arms_of_loadCompat hcompat
        rcases resolve_min_cases hmin hc with ⟨v, hv⟩ | hnone
        · exact .inl ⟨v, mapError_eq_ok_iff.mpr hv⟩
        · exact .inr ⟨_, mapError_eq_error_iff.mpr ⟨_, hnone, rfl⟩, .noMatch⟩

end CommandLine

open Project CommandLine in
/-- **The compat range of a project can be used**, whatever way its entries are read. A compat range
that is read from a project has at least one arm; no arm is blank, and each of them, and all of them
together, are ranges. So whatever the arguments and the files are, a request for the least allowed
release prints a version, or fails for one of the reasons listed; it never lacks a compat range. -/
theorem project_range_is_usable (reader : EntryReader) :
    (∀ text c, compatRange text reader = .ok c → c.arms ≠ [] ∧
      (∀ arm ∈ c.arms, Text.trim arm ≠ [] ∧ ∀ policy, ∃ r, Range.ofText policy arm = .ok r) ∧
      ∃ r, c.range = .ok r) ∧
    ∀ s arguments request releases project config prereleases,
      read arguments = .ok (.resolve request releases project config prereleases) →
      Request.read request = .min →
      (∃ v : Version, run s arguments reader = { code := 0, output := v.write ++ ['\n'] }) ∨
        ∃ e, runCommand s (.resolve request releases project config prereleases) reader = .error e ∧
          LeastFault request e ∧
          run s arguments reader = { code := 1, error := some e.message, cause := e.cause? } := by
  constructor
  · intro text c h
    obtain ⟨es, -, hrange⟩ := bind_eq_ok_iff.mp h
    have hread : ∀ policy, ∀ arm ∈ c.arms, ∃ r, Range.read policy arm = .ok r :=
      fun policy arm harm => (obtained_of_rangeOfEntries hrange).exists_read policy harm
    have hne := arms_ne_nil_of_rangeOfEntries hrange
    refine ⟨hne, fun arm harm => ⟨trim_ne_nil_of_mem_arms hrange harm, fun policy => ?_⟩, ?_⟩
    · obtain ⟨r, hr⟩ := hread policy arm harm
      exact ⟨r, mapError_eq_ok_iff.mpr hr⟩
    · obtain ⟨r, hr⟩ := CompatRange.exists_read_composite hne (hread .named)
      exact ⟨r, mapError_eq_ok_iff.mpr hr⟩
  · intro s arguments request releases project config prereleases harguments hmin
    have hresult : (∃ v : Version, runCommand s (.resolve request releases project config
        prereleases) reader = .ok v.write) ∨ ∃ e, runCommand s (.resolve request releases project
        config prereleases) reader = .error e ∧ LeastFault request e := runResolve_min hmin
    rw [run, harguments]
    rcases hresult with ⟨v, hv⟩ | ⟨e, he, hfault⟩
    · exact .inl ⟨v, by simp only [hv]⟩
    · exact .inr ⟨e, he, hfault, by simp only [he, Outcome.ofError]⟩

open Project CommandLine in
/-- Two clauses, of which the second one admits the least release; and a file with a mistake in it,
for a parser that keeps the longest beginning that is TOML. -/
theorem project_range_is_usable_two :
    let two := "[compat]\njulia = '1.9, 1.6'\n"
    let broken := "[compat]\njulia = '1.6'\n= broken\n"
    let lenient : EntryReader := fun text =>
      entries text fun text => text.inits.reverse.findSome? Toml.Document.read?
    let catalog : Catalog := ⟨[("v1.5.4".toList, {}), ("v1.9.3".toList, {}), ("v1.6.7".toList, {})]⟩
    let s (project : String) : Surroundings :=
      { directory := "/w".toList, project := none, node := fun path =>
          if path = "/w/Project.toml".toList then .file project.toUTF8
          else if path = "r.json".toList then .file (String.ofList catalog.write).toUTF8
          else .missing }
    let command : Command := .resolve "min".toList (some "r.json".toList) none none false
    let arguments := ["resolve".toList, "min".toList, "--releases=r.json".toList]
    let least : Outcome := { code := 0, output := "1.6.7\n".toList }
    (∃ c, compatRange two.toList = .ok c ∧ c.arms = ["^1.9".toList, "^1.6".toList] ∧
      c.arms ≠ [] ∧
      (∀ arm ∈ c.arms, Text.trim arm ≠ [] ∧ ∀ policy, ∃ r, Range.ofText policy arm = .ok r) ∧
      ∃ r, c.range = .ok r) ∧
    (Toml.Document.read? broken.toList = none ∧ run (s two) arguments = least ∧
      run (s broken) arguments lenient = least) ∧
    (read arguments = .ok command ∧ Request.read "min".toList = .min) ∧
    ((∃ v : Version, run (s broken) arguments lenient =
        { code := 0, output := v.write ++ ['\n'] }) ∨
      ∃ e, runCommand (s broken) command lenient = .error e ∧ LeastFault "min".toList e ∧
        run (s broken) arguments lenient =
          { code := 1, error := some e.message, cause := e.cause? }) := by
  intro two broken lenient catalog s command arguments least
  have hrange : compatRange two.toList = .ok ⟨["^1.9".toList, "^1.6".toList]⟩ := by decide +kernel
  have hread : Toml.Document.read? broken.toList = none := by decide +kernel
  have htwo : run (s two) arguments = least := by decide +kernel
  have hbroken : run (s broken) arguments lenient = least := by decide +kernel
  have harguments : read arguments = .ok command := by decide +kernel
  have hmin : Request.read "min".toList = .min := by decide
  exact ⟨⟨_, hrange, rfl, (project_range_is_usable _).1 _ _ hrange⟩, ⟨hread, htwo, hbroken⟩,
    ⟨harguments, hmin⟩,
    (project_range_is_usable lenient).2 (s broken) arguments _ _ _ _ _ harguments hmin⟩

end JuliaReleases
