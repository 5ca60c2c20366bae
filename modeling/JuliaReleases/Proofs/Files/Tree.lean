import Mathlib.Tactic.SplitIfs
import JuliaReleases.Files.Tree

/-!
# Where a path leads in a tree

`JuliaReleases.FileTree.follow` carries the directories along that it came through. This file says
the same by **locations**, lists of names with the nearest one first:

* `JuliaReleases.FileTree.descend?` – what there is at a location;
* `JuliaReleases.FileTree.Leads` – how the parts of a path lead from one location to another, which
  they do only through directories;
* `JuliaReleases.FileTree.follow_eq_file_iff` – a path has a file at its end if and only if it leads
  to the location of one.

A path is led through directories only, so which locations are directories decides where it leads
(`JuliaReleases.FileTree.Leads.congr`), and no file on the way or elsewhere matters.
-/

namespace JuliaReleases

theorem Surroundings.isFile_iff {s : Surroundings} {path : Text} :
    s.isFile path = true ↔ ∃ bytes, s.node path = .file bytes := by
  unfold isFile
  cases s.node path <;> simp

namespace FileTree

variable {tree tree' u : FileTree} {loc dest parts : List Text} {name part : Text}
  {above : List FileTree} {bytes : ByteArray}

/-! ### Locations -/

/-- What has a name in a directory; in a file nothing has. -/
def child? (name : Text) : FileTree → Option FileTree
  | file _ => none
  | directory entries => entries.lookup name

/-- What there is at a location, given by names with the nearest one first. -/
def descend? (tree : FileTree) : List Text → Option FileTree
  | [] => some tree
  | name :: loc => (tree.descend? loc).bind (child? name)

/-- Whether there is a directory at a location. -/
def IsDirectoryAt (tree : FileTree) (loc : List Text) : Prop :=
  ∃ entries, tree.descend? loc = some (directory entries)

/-- Whether there is a file at a location. -/
def IsFileAt (tree : FileTree) (loc : List Text) : Prop :=
  ∃ bytes, tree.descend? loc = some (file bytes)

/-- **What is reached from the root of a tree**, with the directories above it. -/
inductive Reaches (tree : FileTree) : List Text → FileTree → List FileTree → Prop
  /-- The root lies in no directory. -/
  | root : Reaches tree [] tree []
  /-- What a directory has in it lies in this directory. -/
  | child {loc : List Text} {entries : List (Text × FileTree)} {above : List FileTree}
      {name : Text} {u : FileTree} : Reaches tree loc (directory entries) above →
      entries.lookup name = some u → Reaches tree (name :: loc) u (directory entries :: above)

theorem Reaches.descend?_eq (h : Reaches tree loc u above) : tree.descend? loc = some u := by
  induction h with
  | root => rfl
  | child hparent hlookup ih =>
    rw [descend?, ih]
    exact hlookup

/-- In a directory that holds nothing but files there is no other directory. -/
theorem isDirectoryAt_iff_eq_nil {entries : List (Text × FileTree)}
    (h : ∀ entry ∈ entries, ∃ bytes, entry.2 = .file bytes) :
    (directory entries).IsDirectoryAt loc ↔ loc = [] := by
  refine ⟨fun hloc => ?_, fun hloc => hloc ▸ ⟨entries, rfl⟩⟩
  induction loc with
  | nil => rfl
  | cons name loc ih =>
    obtain ⟨entries', hentries'⟩ := hloc
    obtain ⟨u, hu, hchild⟩ := Option.bind_eq_some_iff.mp hentries'
    cases u with
    | file bytes => exact absurd hchild (by simp [child?])
    | directory siblings =>
      -- The only directory is the root, and what has a name in it is a file.
      obtain rfl := ih ⟨siblings, hu⟩
      obtain rfl : entries = siblings := by simpa [descend?] using hu
      obtain ⟨before, after, rfl, -⟩ := List.lookup_eq_some_iff.mp hchild
      obtain ⟨bytes, hbytes⟩ := h (name, directory entries') (by simp)
      exact absurd hbytes (by simp)

/-! ### Paths -/

/-- **How the parts of a path lead** from one location to another. -/
inductive Leads (tree : FileTree) : List Text → List Text → List Text → Prop
  /-- The path ends. -/
  | here {loc : List Text} : Leads tree loc [] loc
  /-- An empty part and a point stay in the directory. -/
  | stay {loc dest parts : List Text} {part : Text} : tree.IsDirectoryAt loc →
      part = [] ∨ part = ['.'] → Leads tree loc parts dest → Leads tree loc (part :: parts) dest
  /-- Two points lead to the directory above. -/
  | up {loc dest parts : List Text} {name : Text} : tree.IsDirectoryAt (name :: loc) →
      Leads tree loc parts dest → Leads tree (name :: loc) (['.', '.'] :: parts) dest
  /-- A name leads to what has it in the directory. -/
  | down {loc dest parts : List Text} {name : Text} : tree.IsDirectoryAt loc →
      ¬ (name = [] ∨ name = ['.']) → name ≠ ['.', '.'] → Leads tree (name :: loc) parts dest →
      Leads tree loc (name :: parts) dest

/-- **Files do not matter on the way**: where a path leads is decided by the directories. -/
theorem Leads.congr (h : ∀ loc, tree.IsDirectoryAt loc ↔ tree'.IsDirectoryAt loc)
    (hleads : Leads tree loc parts dest) : Leads tree' loc parts dest := by
  induction hleads with
  | here => exact .here
  | stay hdirectory hpart _ ih => exact .stay ((h _).mp hdirectory) hpart ih
  | up hdirectory _ ih => exact .up ((h _).mp hdirectory) ih
  | down hdirectory hname hpoints _ ih => exact .down ((h _).mp hdirectory) hname hpoints ih

theorem isDirectoryAt_of_leads_cons (h : Leads tree loc (part :: parts) dest) :
    tree.IsDirectoryAt loc := by
  cases h with
  | stay hdirectory _ _ => exact hdirectory
  | up hdirectory _ => exact hdirectory
  | down hdirectory _ _ _ => exact hdirectory

theorem not_leads_of_descend?_eq_none (h : tree.descend? loc = none)
    (hleads : Leads tree loc parts dest) : tree.descend? dest ≠ some (file bytes) := by
  cases parts with
  | nil =>
    cases hleads
    simp [h]
  | cons part parts =>
    obtain ⟨entries, hentries⟩ := isDirectoryAt_of_leads_cons hleads
    exact absurd (h.symm.trans hentries) (by simp)

/-- Two points do not lead out of the tree. -/
theorem not_leads_up_root : ¬ Leads tree [] (['.', '.'] :: parts) dest := by
  intro h
  cases h with
  | stay _ hpart => exact absurd hpart (by simp)
  | down _ _ hpoints => exact absurd rfl hpoints

theorem leads_up_iff (hdirectory : tree.IsDirectoryAt (name :: loc)) :
    Leads tree (name :: loc) (['.', '.'] :: parts) dest ↔ Leads tree loc parts dest := by
  refine ⟨fun h => ?_, .up hdirectory⟩
  cases h with
  | stay _ hpart => exact absurd hpart (by simp)
  | up _ hrest => exact hrest
  | down _ _ hpoints => exact absurd rfl hpoints

section Directory

variable (hdirectory : tree.IsDirectoryAt loc)
include hdirectory

theorem leads_stay_iff (hpart : part = [] ∨ part = ['.']) :
    Leads tree loc (part :: parts) dest ↔ Leads tree loc parts dest := by
  refine ⟨fun h => ?_, .stay hdirectory hpart⟩
  cases h with
  | stay _ _ hrest => exact hrest
  | up => exact absurd hpart (by simp)
  | down _ hname => exact absurd hpart hname

theorem leads_down_iff (hname : ¬ (part = [] ∨ part = ['.'])) (hpoints : part ≠ ['.', '.']) :
    Leads tree loc (part :: parts) dest ↔ Leads tree (part :: loc) parts dest := by
  refine ⟨fun h => ?_, .down hdirectory hname hpoints⟩
  cases h with
  | stay _ hpart => exact absurd hpart hname
  | up => exact absurd rfl hpoints
  | down _ _ _ hrest => exact hrest

end Directory

theorem follow_directory_cons (above : List FileTree) (entries : List (Text × FileTree))
    (part : Text) (parts : List Text) : follow above (directory entries) (part :: parts) =
      if part = [] ∨ part = ['.'] then follow above (directory entries) parts
      else if part = ['.', '.'] then
        match above with
        | parent :: above => follow above parent parts
        | [] => .missing
      else
        match entries.lookup part with
        | some child => follow (directory entries :: above) child parts
        | none => .missing :=
  follow.eq_def above (directory entries) (part :: parts)

/-- **A path has a file at its end** if and only if it leads to the location of one. -/
theorem follow_eq_file_iff (h : Reaches tree loc u above) : follow above u parts = .file bytes ↔
    ∃ dest, Leads tree loc parts dest ∧ tree.descend? dest = some (file bytes) := by
  -- Along the parts; `Reaches` keeps the directories above in step with the location.
  induction parts generalizing loc u above with
  | nil =>
    have hhere : ∀ dest, Leads tree loc [] dest ↔ loc = dest :=
      fun dest => ⟨fun hleads => by cases hleads; rfl, fun heq => heq ▸ .here⟩
    simp only [hhere, exists_eq_left', h.descend?_eq, Option.some.injEq]
    cases u <;> simp [follow, node]
  | cons part parts ih =>
    cases u with
    | file bytes' =>
      refine iff_of_false (by simp [follow]) ?_
      rintro ⟨dest, hleads, -⟩
      obtain ⟨entries, hentries⟩ := isDirectoryAt_of_leads_cons hleads
      exact absurd (h.descend?_eq.symm.trans hentries) (by simp)
    | directory entries =>
      have hdirectory : tree.IsDirectoryAt loc := ⟨entries, h.descend?_eq⟩
      rw [follow_directory_cons]
      split_ifs with hstay hup
      · simp only [leads_stay_iff hdirectory hstay, ih h]
      · subst hup
        cases h with
        | root => simp [not_leads_up_root]
        | child hparent hlookup => simpa only [leads_up_iff hdirectory] using ih hparent
      · simp only [leads_down_iff hdirectory hstay hup]
        cases hlookup : entries.lookup part with
        | some v => exact ih (.child h hlookup)
        | none =>
          have hnone : tree.descend? (part :: loc) = none := by
            rw [descend?, h.descend?_eq]
            exact hlookup
          refine iff_of_false (by simp) ?_
          rintro ⟨dest, hleads, hfile⟩
          exact not_leads_of_descend?_eq_none hnone hleads hfile

/-! ### Paths from the current directory -/

/-- The parts of a path that are followed when the tree is at the given directory, the current one.
No others lie in the tree. -/
def parts? (directory path : Text) : Option (List Text) :=
  if path = [] then none
  else if path = directory then some []
  else
    match Text.dropPrefix? (directory ++ ['/']) path with
    | some path => some (path.splitOn '/')
    | none => if path.head? = some '/' then none else some (path.splitOn '/')

theorem at?_eq (tree : FileTree) (directory path : Text) :
    tree.at? directory path = (parts? directory path).elim .missing (follow [] tree) := by
  unfold at? parts?
  split_ifs
  · rfl
  · rfl
  · cases Text.dropPrefix? (directory ++ ['/']) path <;> rfl
  · cases Text.dropPrefix? (directory ++ ['/']) path <;> rfl

/-- Whether a path leads to a location when the tree is at the given directory. -/
def LeadsTo (tree : FileTree) (directory path : Text) (dest : List Text) : Prop :=
  ∃ parts, parts? directory path = some parts ∧ Leads tree [] parts dest

/-- **Whether a path leads to a regular file.** -/
theorem isFile_surroundings_iff {directory path : Text} {project : Option Text} :
    (tree.surroundings directory project).isFile path = true ↔
      ∃ dest, tree.LeadsTo directory path dest ∧ tree.IsFileAt dest := by
  have hnode : (tree.surroundings directory project).node path = tree.at? directory path := rfl
  rw [Surroundings.isFile_iff, hnode, at?_eq]
  cases hparts : parts? directory path with
  | none => simp [LeadsTo, hparts]
  | some parts =>
    simp only [Option.elim_some, follow_eq_file_iff .root, LeadsTo, hparts, IsFileAt,
      Option.some.injEq, exists_eq_left']
    exact ⟨fun ⟨bytes, dest, hleads, hbytes⟩ => ⟨dest, hleads, bytes, hbytes⟩,
      fun ⟨dest, hleads, bytes, hbytes⟩ => ⟨bytes, dest, hleads, hbytes⟩⟩

/-- **Only the file at the end of a path matters**: trees with the same directories that agree there
agree on whether the path leads to a file. -/
theorem isFile_surroundings_congr {directory path : Text} {project : Option Text}
    (hdirectory : ∀ loc, tree.IsDirectoryAt loc ↔ tree'.IsDirectoryAt loc)
    (hfile : ∀ dest, tree.LeadsTo directory path dest →
      (tree.IsFileAt dest ↔ tree'.IsFileAt dest)) :
    (tree.surroundings directory project).isFile path =
      (tree'.surroundings directory project).isFile path := by
  have hleads : ∀ dest, tree.LeadsTo directory path dest ↔ tree'.LeadsTo directory path dest :=
    fun dest => exists_congr fun parts => and_congr_right fun _ =>
      ⟨Leads.congr hdirectory, Leads.congr fun loc => (hdirectory loc).symm⟩
  rw [Bool.eq_iff_iff, isFile_surroundings_iff, isFile_surroundings_iff]
  exact exists_congr fun dest => by rw [← hleads, and_congr_right (hfile dest)]

end FileTree

end JuliaReleases
