import JuliaReleases.Proofs.Catalog.Nightly

/-!
# Addresses stay apart

Where a version is downloaded from depends on its name. The names of nightly builds,
`JuliaReleases.Nightly.Names`, lead to the bucket, and any other name leads to what the catalog has
recorded. Neither ever leads to the files of another platform or another branch:

* In the bucket, each platform that has a nightly build has two directories and a file of its own,
  `JuliaReleases.Nightly.Build`. They and the branch are the parts of the path
  (`JuliaReleases.Nightly.address_eq_ok_iff`). No part has a slash in it, so the parts can be read
  off again, and the numbers of a branch can be read off their part since neither has a point in it.
  Hence an address belongs to one platform and one branch
  (`JuliaReleases.Nightly.eq_of_address_eq_ok`).
* In the catalog, the files are looked through in order, and only in the record of the very version
  (`JuliaReleases.Catalog.binary?_eq_ok_some_iff`).
-/

namespace JuliaReleases

/-! ### Platforms -/

theorem Os.catalogName_injective : Function.Injective catalogName := fun a b => by
  cases a <;> cases b <;> decide

theorem Nightly.archDirectory_injective : Function.Injective archDirectory := fun a b => by
  cases a <;> cases b <;> decide

namespace Nightly

variable {text url os arch file : Text} {platform platform' : Platform}
  {branch branch' : Option (Nat × Nat)} {e : CatalogError}

/-! ### Names of nightly builds -/

/-- **The names of nightly builds**, with the branch that they belong to, if it is not the
development branch. A branch is named by its major and minor number, with or without leading
zeros. -/
inductive Names : Text → Option (Nat × Nat) → Prop
  /-- The word alone. -/
  | development : Names word none
  /-- Two numerals with a point between them, a hyphen, and the word. -/
  | branch {major minor : Text} : Decimal.isNumeral major = true → Decimal.isNumeral minor = true →
      Decimal.value major ≤ maxNumber → Decimal.value minor ≤ maxNumber →
      Names (major ++ '.' :: (minor ++ '-' :: word))
        (some (Decimal.value major, Decimal.value minor))

/-- **A branch is recognised by its name.** -/
theorem branch?_eq_some_iff {numbers : Nat × Nat} :
    branch? text = some numbers ↔ Names text (some numbers) := by
  constructor
  · intro h
    unfold branch? at h
    split at h
    · next front rest hcut =>
      obtain ⟨rfl, -⟩ := Text.eq_of_cut_eq_some hcut
      split at h
      · next hword =>
        subst hword
        split at h
        · next major minor hpoint =>
          obtain ⟨rfl, -⟩ := Text.eq_of_cut_eq_some hpoint
          obtain ⟨m, hm, h⟩ := Option.bind_eq_some_iff.mp h
          obtain ⟨n, hn, h⟩ := Option.bind_eq_some_iff.mp h
          obtain rfl := Option.some.inj h
          obtain ⟨hmajor, hmajorle, rfl⟩ := Decimal.read?_eq_some_iff.mp hm
          obtain ⟨hminor, hminorle, rfl⟩ := Decimal.read?_eq_some_iff.mp hn
          rw [List.append_assoc, List.cons_append]
          exact .branch hmajor hminor hmajorle hminorle
        · exact absurd h (by simp)
      · exact absurd h (by simp)
    · exact absurd h (by simp)
  · intro h
    cases h with
    | @branch major minor hmajor hminor hmajorle hminorle =>
      have hhyphen : '-' ∉ major ++ '.' :: minor := by
        simp [Decimal.notMem_of_isNumeral hmajor (by decide : '-'.isDigit = false),
          Decimal.notMem_of_isNumeral hminor (by decide : '-'.isDigit = false)]
      have hcut := Text.cut_append_cons hhyphen word
      rw [List.append_assoc, List.cons_append] at hcut
      have hpoint := Text.cut_append_cons
        (Decimal.notMem_of_isNumeral hmajor (by decide : '.'.isDigit = false)) minor
      simp only [branch?, hcut, if_true, hpoint,
        Decimal.read?_eq_some_iff.mpr ⟨hmajor, hmajorle, rfl⟩,
        Decimal.read?_eq_some_iff.mpr ⟨hminor, hminorle, rfl⟩]
      rfl

theorem names_none_iff : Names text none ↔ text = word := by
  constructor
  · rintro ⟨⟩
    rfl
  · rintro rfl
    exact .development

/-- **The name of a nightly build leads to its bucket**, whatever the catalog has. -/
theorem downloadAddress_of_names (h : Names text branch) (binary : Option Binary)
    (platform : Platform) : downloadAddress binary text platform = address platform branch := by
  cases branch with
  | some numbers => simp only [downloadAddress, branch?_eq_some_iff.mpr h]
  | none =>
    obtain rfl := names_none_iff.mp h
    rfl

theorem forall_not_names_iff :
    (∀ branch, ¬ Names text branch) ↔ branch? text = none ∧ text ≠ word := by
  simp only [Option.forall, names_none_iff, ← branch?_eq_some_iff,
    Option.eq_none_iff_forall_ne_some, ne_eq, and_comm]

/-- Any other name leads to what the catalog has. -/
theorem downloadAddress_of_not_names (h : ∀ branch, ¬ Names text branch) (binary : Option Binary)
    (platform : Platform) : downloadAddress binary text platform =
      binary.elim (.error (.unknownVersion text)) fun binary => .ok binary.url := by
  obtain ⟨hbranch, hword⟩ := forall_not_names_iff.mp h
  simp only [downloadAddress, hbranch, if_neg hword]
  cases binary <;> rfl

/-! ### The bucket -/

/-- **The nightly builds**: for each platform that has one, the directories of its operating system
and of its architecture in the bucket, and the name of the newest file there. -/
inductive Build : Platform → Text → Text → Text → Prop
  | win64 : Build ⟨.windows, .x64⟩ "winnt".toList "x64".toList "julia-latest-win64.exe".toList
  | win32 : Build ⟨.windows, .x86⟩ "winnt".toList "x86".toList "julia-latest-win32.exe".toList
  | mac64 : Build ⟨.macOs, .x64⟩ "mac".toList "x64".toList "julia-latest-mac64.dmg".toList
  | macAarch64 : Build ⟨.macOs, .aarch64⟩ "mac".toList "aarch64".toList
    "julia-latest-macaarch64.dmg".toList
  | linux64 : Build ⟨.linux, .x64⟩ "linux".toList "x64".toList
    "julia-latest-linux64.tar.gz".toList
  | linux32 : Build ⟨.linux, .x86⟩ "linux".toList "x86".toList
    "julia-latest-linux32.tar.gz".toList
  | linuxAarch64 : Build ⟨.linux, .aarch64⟩ "linux".toList "aarch64".toList
    "julia-latest-linuxaarch64.tar.gz".toList

/-- **The platforms without a nightly build**, each with the reason that is given. -/
inductive Lacks : Platform → Text → Prop
  | mac32 : Lacks ⟨.macOs, .x86⟩ "32-bit Julia is not available on macOS".toList
  | windowsAarch64 :
    Lacks ⟨.windows, .aarch64⟩ "nightly Julia is not built for Windows on aarch64".toList

theorem build_iff : Build platform os arch file ↔
    os = platform.os.catalogName ∧ arch = archDirectory platform.arch ∧
      fileName platform = .ok file := by
  constructor
  · rintro ⟨⟩ <;> exact ⟨rfl, rfl, rfl⟩
  · rintro ⟨rfl, rfl, hname⟩
    obtain ⟨os, arch⟩ := platform
    cases os <;> cases arch <;> cases hname <;> constructor

theorem fileName_eq_error_iff : fileName platform = .error e ↔
    ∃ reason, Lacks platform reason ∧ e = .platform ⟨reason⟩ := by
  constructor
  · intro hname
    obtain ⟨os, arch⟩ := platform
    cases os <;> cases arch <;> cases hname
    · exact ⟨_, .windowsAarch64, rfl⟩
    · exact ⟨_, .mac32, rfl⟩
  · rintro ⟨reason, ⟨⟩, rfl⟩ <;> rfl

/-- The parts of a path in the bucket: the two directories, the branch if it is not the development
branch, and the name of the file. -/
def segments (os arch : Text) (branch : Option (Nat × Nat)) (file : Text) : List Text :=
  [os, arch] ++
    (branch.map fun numbers => dotted [Decimal.write numbers.1, Decimal.write numbers.2]).toList ++
    [file]

/-- **An address in the bucket** consists of its parts with slashes between them. -/
theorem address_eq_ok_iff : address platform branch = .ok url ↔
    ∃ os arch file, Build platform os arch file ∧
      url = "https://julialangnightlies-s3.julialang.org/bin/".toList ++
        ['/'].intercalate (segments os arch branch file) := by
  have hbucket : "https://julialangnightlies-s3.julialang.org/bin/".toList = bucket ++ ['/'] := by
    decide +kernel
  have hpath : ∀ file, bucket ++ '/' :: platform.os.catalogName ++
      '/' :: archDirectory platform.arch ++ branchDirectory branch ++ '/' :: file =
        bucket ++ ['/'] ++ ['/'].intercalate
          (segments platform.os.catalogName (archDirectory platform.arch) branch file) := by
    intro file
    cases branch <;> simp [segments, branchDirectory, dotted, List.intercalate_cons_cons]
  rw [address, bind_eq_ok_iff, hbucket]
  constructor
  · rintro ⟨file, hfile, h⟩
    obtain rfl := Except.ok.inj h
    exact ⟨platform.os.catalogName, archDirectory platform.arch, file,
      build_iff.mpr ⟨rfl, rfl, hfile⟩, hpath file⟩
  · rintro ⟨os, arch, file, hbuild, rfl⟩
    obtain ⟨rfl, rfl, hfile⟩ := build_iff.mp hbuild
    exact ⟨file, hfile, congrArg Except.ok (hpath file)⟩

/-- **There is no address** if the platform has no nightly build. -/
theorem address_eq_error_iff : address platform branch = .error e ↔
    ∃ reason, Lacks platform reason ∧ e = .platform ⟨reason⟩ := by
  rw [← fileName_eq_error_iff, address, bind_eq_error_iff]
  constructor
  · rintro (h | ⟨file, -, h⟩)
    · exact h
    · cases h
  · exact .inl

/-- No part of a path has a slash in it. -/
theorem slash_notMem_segments (h : Build platform os arch file) :
    ∀ part ∈ segments os arch branch file, '/' ∉ part := by
  have hplatform : '/' ∉ os ∧ '/' ∉ arch ∧ '/' ∉ file := by cases h <;> decide
  have hbranch : ∀ m n, '/' ∉ dotted [Decimal.write m, Decimal.write n] := by
    intro m n hmem
    rcases isDigit_of_mem_dotted_write (l := [m, n]) hmem with h | h <;> exact absurd h (by decide)
  cases branch <;> simp [segments, hplatform, hbranch]

/-- The numbers of a branch are read off its directory. -/
theorem dotted_numbers_injective : Function.Injective fun numbers : Nat × Nat =>
    dotted [Decimal.write numbers.1, Decimal.write numbers.2] := by
  rintro ⟨m, n⟩ ⟨m', n'⟩ h
  have hnumbers : [m, n] = [m', n'] :=
    eq_of_dotted_write_eq (List.cons_ne_nil _ _) (List.cons_ne_nil _ _) h
  simpa using hnumbers

/-- The directories tell the platforms apart. -/
theorem Build.platform_eq {file' : Text} (h : Build platform os arch file)
    (h' : Build platform' os arch file') : platform = platform' := by
  obtain ⟨hos, harch, -⟩ := build_iff.mp h
  obtain ⟨hos', harch', -⟩ := build_iff.mp h'
  cases platform
  cases platform'
  rw [Platform.mk.injEq]
  exact ⟨Os.catalogName_injective (hos.symm.trans hos'),
    archDirectory_injective (harch.symm.trans harch')⟩

/-- **An address in the bucket belongs to one platform and one branch.** -/
theorem eq_of_address_eq_ok (h : address platform branch = .ok url)
    (h' : address platform' branch' = .ok url) : platform = platform' ∧ branch = branch' := by
  obtain ⟨os, arch, file, hbuild, rfl⟩ := address_eq_ok_iff.mp h
  obtain ⟨os', arch', file', hbuild', heq⟩ := address_eq_ok_iff.mp h'
  have hparts : segments os arch branch file = segments os' arch' branch' file' := by
    rw [← List.splitOn_intercalate '/' (slash_notMem_segments hbuild) (by simp [segments]),
      ← List.splitOn_intercalate '/' (slash_notMem_segments hbuild') (by simp [segments])]
    exact congrArg (List.splitOn '/') (List.append_cancel_left heq)
  simp only [segments, List.cons_append, List.nil_append, List.cons.injEq] at hparts
  obtain ⟨rfl, rfl, hbehind⟩ := hparts
  have hdirectory : Function.Injective (Option.toList : Option Text → List Text) := by
    intro a b hlist
    cases a <;> cases b <;> simp_all
  have hbranch := hdirectory (List.append_inj' hbehind rfl).1
  exact ⟨hbuild.platform_eq hbuild', Option.map_injective dotted_numbers_injective hbranch⟩

end Nightly

/-! ### The catalog -/

namespace Catalog

variable {c : Catalog} {version named os arch : Text} {platform : Platform} {binary : Binary}

theorem get?_eq_none_iff : c.get? version = none ↔ version ∉ c.versions := by
  rw [← isSome_get?_iff, Option.not_isSome_iff_eq_none]

/-- **The binary that is found** is the first one for the platform in the record of the version. -/
theorem binary?_eq_ok_some_iff : c.binary? version platform = .ok (some binary) ↔
    ¬ Nightly.IsName version ∧ ∃ release, c.get? version = some release ∧
      IsFirstFor platform release.files binary := by
  by_cases hnightly : Nightly.IsName version
  · simp [binary?, hnightly]
  · cases hrelease : c.get? version with
    | none => simp [binary?, hnightly, hrelease]
    | some release =>
      cases hfind : release.files.find? (IsFor platform) with
      | none => simp [binary?, hnightly, hrelease, hfind, ← find?_eq_some_iff]
      | some found => simp [binary?, hnightly, hrelease, hfind, ← find?_eq_some_iff]

/-- **A version is unknown** if it is no name of a nightly build and no tag. -/
theorem binary?_eq_unknownVersion_iff :
    c.binary? version platform = .error (.unknownVersion named) ↔
      named = version ∧ ¬ Nightly.IsName version ∧ version ∉ c.versions := by
  rw [← get?_eq_none_iff]
  by_cases hnightly : Nightly.IsName version
  · simp [binary?, hnightly]
  · cases hrelease : c.get? version with
    | none => simp [binary?, hnightly, hrelease, eq_comm]
    | some release =>
      cases hfind : release.files.find? (IsFor platform) <;>
        simp [binary?, hnightly, hrelease, hfind]

/-- **There is no binary** if the record of the version has none for the platform. -/
theorem binary?_eq_noBinary_iff : c.binary? version platform = .error (.noBinary named os arch) ↔
    (named = version ∧ os = platform.os.catalogName ∧ arch = platform.arch.catalogName) ∧
      ¬ Nightly.IsName version ∧ ∃ release, c.get? version = some release ∧
        ∀ binary ∈ release.files, ¬ IsFor platform binary := by
  have hnone : ∀ {release : Release}, release.files.find? (IsFor platform) = none ↔
      ∀ binary ∈ release.files, ¬ IsFor platform binary := by
    simp
  by_cases hnightly : Nightly.IsName version
  · simp [binary?, hnightly]
  · cases hrelease : c.get? version with
    | none => simp [binary?, hnightly, hrelease]
    | some release =>
      simp only [← hnone]
      cases hfind : release.files.find? (IsFor platform) <;>
        simp [binary?, hnightly, hrelease, hfind, eq_comm, -List.find?_eq_none]

end Catalog

open Nightly Catalog in
/-- **Addresses never cross platforms or branches.**

* A name of a nightly build leads to the bucket, to the build for the platform that was asked for
  and to the branch in the name, whatever the catalog has; if no nightly build is made for the
  platform, that is the error. Any other name leads to the address that the given binary has in the
  catalog, and without a binary the version is unknown.
* An address in the bucket belongs to one operating system, one architecture and one branch.
* A binary that is found in the catalog is the first one for the platform in the record of this very
  version. What is no name of a nightly build is unknown if it is no tag, and has no binary if the
  record of the tag has none for the platform; there are no other such cases. -/
theorem download_addresses_stay_apart (version : Text) (platform : Platform) :
    (∀ branch, Names version branch → ∀ binary,
      downloadAddress binary version platform = Nightly.address platform branch ∧
      (∀ url, downloadAddress binary version platform = .ok url ↔
        ∃ os arch file, Build platform os arch file ∧
          url = "https://julialangnightlies-s3.julialang.org/bin/".toList ++
            ['/'].intercalate (segments os arch branch file)) ∧
      ∀ e, downloadAddress binary version platform = .error e ↔
        ∃ reason, Lacks platform reason ∧ e = .platform ⟨reason⟩) ∧
    ((∀ branch, ¬ Names version branch) → ∀ binary : Option Binary,
      downloadAddress binary version platform =
        binary.elim (.error (.unknownVersion version)) fun binary => .ok binary.url) ∧
    (∀ platform' branch branch' url, Nightly.address platform branch = .ok url →
      Nightly.address platform' branch' = .ok url →
        platform.os = platform'.os ∧ platform.arch = platform'.arch ∧ branch = branch') ∧
    ∀ c : Catalog,
      (∀ binary, c.binary? version platform = .ok (some binary) →
        ∃ release, c.get? version = some release ∧ IsFirstFor platform release.files binary) ∧
      (∀ named, c.binary? version platform = .error (.unknownVersion named) ↔
        named = version ∧ ¬ IsName version ∧ version ∉ c.versions) ∧
      ∀ named os arch, c.binary? version platform = .error (.noBinary named os arch) ↔
        (named = version ∧ os = platform.os.catalogName ∧ arch = platform.arch.catalogName) ∧
          ¬ IsName version ∧ ∃ release, c.get? version = some release ∧
            ∀ binary ∈ release.files, ¬ IsFor platform binary := by
  refine ⟨fun branch h binary => ?_, fun h binary => downloadAddress_of_not_names h binary platform,
    ?_, fun c => ⟨?_, ?_, ?_⟩⟩
  · have hdownload := downloadAddress_of_names h binary platform
    refine ⟨hdownload, fun url => ?_, fun e => ?_⟩
    · rw [hdownload, address_eq_ok_iff]
    · rw [hdownload, address_eq_error_iff]
  · intro platform' branch branch' url h h'
    obtain ⟨rfl, hbranch⟩ := eq_of_address_eq_ok h h'
    exact ⟨rfl, rfl, hbranch⟩
  · exact fun binary h => (binary?_eq_ok_some_iff.mp h).2
  · exact fun named => binary?_eq_unknownVersion_iff
  · exact fun named os arch => binary?_eq_noBinary_iff

open Nightly Catalog in
/-- Two names of one branch, which lead to one address; the development branch on another platform,
and on one without nightly builds; a name with a digit in it that is not one of `0` to `9`; and a
version with binaries for two platforms. -/
theorem download_addresses_stay_apart_linux :
    let platform : Platform := ⟨.linux, .x64⟩
    let binary : Binary :=
      { os := "linux".toList, arch := "x86_64".toList, url := "b".toList, sha256 := [] }
    let files : List Binary :=
      [{ os := "mac".toList, arch := "x86_64".toList, url := "a".toList, sha256 := [] }, binary]
    let c : Catalog := ⟨[("1.7.0-rc1".toList, { files })]⟩
    let url :=
      "https://julialangnightlies-s3.julialang.org/bin/linux/x64/1.10/julia-latest-linux64.tar.gz"
    (downloadAddress binary "01.10-nightly".toList platform = .ok url.toList ∧
      downloadAddress none "1.10-nightly".toList platform = .ok url.toList ∧
      Nightly.address platform (some (1, 10)) = .ok url.toList ∧
      some (Decimal.value "01".toList, 10) = some (1, Decimal.value "10".toList)) ∧
    downloadAddress none "nightly".toList ⟨.windows, .x86⟩ = .ok
      "https://julialangnightlies-s3.julialang.org/bin/winnt/x86/julia-latest-win32.exe".toList ∧
    downloadAddress binary "nightly".toList ⟨.macOs, .x86⟩ =
      .error (.platform ⟨"32-bit Julia is not available on macOS".toList⟩) ∧
    downloadAddress binary "1.\uFF16-nightly".toList platform = .ok "b".toList ∧
    (c.binary? "1.7.0-rc1".toList platform = .ok (some binary) ∧
      ∃ release, c.get? "1.7.0-rc1".toList = some release ∧
        IsFirstFor platform release.files binary) := by
  intro platform binary files c url
  have hzero : Names "01.10-nightly".toList (some (Decimal.value "01".toList, 10)) :=
    @Names.branch "01".toList "10".toList rfl rfl (by decide) (by decide)
  have hplain : Names "1.10-nightly".toList (some (1, Decimal.value "10".toList)) :=
    @Names.branch "1".toList "10".toList rfl rfl (by decide) (by decide)
  have hother : ∀ branch, ¬ Names "1.\uFF16-nightly".toList branch :=
    forall_not_names_iff.mpr ⟨rfl, by decide⟩
  refine ⟨?_, ?_, ?_, ?_, rfl, ?_⟩
  · obtain ⟨haddress, hurl, -⟩ :=
      (download_addresses_stay_apart "01.10-nightly".toList platform).1 _ hzero binary
    obtain ⟨-, hurl', -⟩ :=
      (download_addresses_stay_apart "1.10-nightly".toList platform).1 _ hplain none
    have hpath : url.toList = "https://julialangnightlies-s3.julialang.org/bin/".toList ++
        ['/'].intercalate (segments "linux".toList "x64".toList (some (1, 10))
          "julia-latest-linux64.tar.gz".toList) := by decide +kernel
    have hdownload := (hurl url.toList).mpr ⟨_, _, _, .linux64, hpath⟩
    have hbucket := haddress.symm.trans hdownload
    refine ⟨hdownload, (hurl' url.toList).mpr ⟨_, _, _, .linux64, hpath⟩, hbucket, ?_⟩
    exact ((download_addresses_stay_apart [] platform).2.2.1 platform
      (some (Decimal.value "01".toList, 10)) (some (1, Decimal.value "10".toList)) _
      hbucket hbucket).2.2
  · exact (((download_addresses_stay_apart "nightly".toList ⟨.windows, .x86⟩).1 none
      .development none).2.1 _).mpr ⟨_, _, _, .win32, by decide +kernel⟩
  · exact (((download_addresses_stay_apart "nightly".toList ⟨.macOs, .x86⟩).1 none
      .development binary).2.2 _).mpr ⟨_, .mac32, rfl⟩
  · exact (download_addresses_stay_apart _ platform).2.1 hother binary
  · exact ((download_addresses_stay_apart "1.7.0-rc1".toList platform).2.2.2 c).1 binary rfl

end JuliaReleases
