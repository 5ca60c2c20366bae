import JuliaReleases.Catalog.Format
import JuliaReleases.Proofs.Json.Typed
import JuliaReleases.Proofs.Json.Yields

/-!
# Catalog documents

A catalog is written as nested records, and read by readers with the same fields. This file follows
both through the records: a record is read back from whatever layout it was printed in
(`JuliaReleases.Binary.readsPrinted_toJson`, `JuliaReleases.Release.readsPrinted_toJson`), provided
that the sizes in it can be read at all, and a record that was read has such sizes only
(`JuliaReleases.Binary.yields_read`, `JuliaReleases.Release.yields_read`).

The entries of a document are read in its order, repeated tags included, and make up the catalog
afterwards (`JuliaReleases.Catalog.read_print`).
-/

namespace JuliaReleases

open Json

/-- Whether the size of a binary is a number that can be read. -/
def Binary.SizeFits (b : Binary) : Prop :=
  ∀ n ∈ b.size, n ≤ maxNumber

/-- Whether the sizes of all binaries of a release can be read. -/
def Release.SizesFit (r : Release) : Prop :=
  ∀ b ∈ r.files, b.SizeFits

/-- Whether the sizes of all binaries of a catalog can be read. -/
def Catalog.SizesFit (c : Catalog) : Prop :=
  ∀ entry ∈ c.entries, entry.2.SizesFit

/-! ### Values that may be absent -/

theorem readsPrinted_ofText? (t : Option Text) :
    ReadsPrinted (readOptional readText) (.ofText? t) t := by
  cases t with
  | none => exact readsPrinted_null readText
  | some t =>
    have hmark : some '"' ≠ some 'n' := by decide
    exact fun l depth => (readsPrinted_text t l depth).some hmark

theorem readsPrinted_ofNat? {n : Option Nat} (h : ∀ m ∈ n, m ≤ maxNumber) :
    ReadsPrinted (readOptional readNat) (.ofNat? n) n := by
  cases n with
  | none => exact readsPrinted_null readNat
  | some n =>
    refine fun l depth => (readsPrinted_nat (h n rfl) l depth).some fun hhead => ?_
    have hdigit := Decimal.isDigit_of_mem_write (List.mem_of_head? hhead)
    exact absurd hdigit (by decide)

/-! ### Binaries -/

namespace Binary

/-- A binary that was read has a size that can be read. -/
theorem yields_read : Yields Binary.read SizeFits := by
  let I (d : Draft) : Prop := ∀ size ∈ d.size, ∀ n ∈ size, n ≤ maxNumber
  refine yields_record (I := I) ?_ (by simp [I]) ?_
  · simp only [fields, List.forall_mem_cons]
    -- Only the field of the size says anything about it.
    refine ⟨.field (.true _) fun _ _ h _ => h, .field (.true _) fun _ _ h _ => h,
      .field (.true _) fun _ _ h _ => h, .field (.true _) fun _ _ h _ => h,
      .field (.true _) fun _ _ h _ => h, .field (.true _) fun _ _ h _ => h,
      .field (.true _) fun _ _ h _ => h, ?_, .field (.true _) fun _ _ h _ => h, by simp⟩
    refine .field yields_nat.optional fun d size _ hsize => ?_
    rintro _ ⟨rfl⟩
    exact hsize
  · intro d b hd hfinish
    simp only [ofDraft?, Option.bind_eq_bind, Option.bind_eq_some_iff] at hfinish
    obtain ⟨os, -, arch, -, url, -, sha256, -, hb⟩ := hfinish
    obtain rfl := Option.some.inj hb
    cases hsize : d.size with
    | none => simp [SizeFits]
    | some size => simpa [SizeFits, hsize] using hd size hsize

theorem readsPrinted_toJson {b : Binary} (h : b.SizeFits) :
    ReadsPrinted Binary.read b.toJson b := by
  obtain ⟨os, arch, url, sha256, extension, kind, triplet, size, version⟩ := b
  refine readsPrinted_record (?_ : Threads _ _ _ (⟨os, arch, url, sha256, extension, some kind,
    some triplet, some size, some version⟩ : Draft)) rfl
  exact .cons (((readsPrinted_text os).field _).readField rfl rfl) <|
    .cons (((readsPrinted_text arch).field _).readField rfl rfl) <|
    .cons (((readsPrinted_text url).field _).readField rfl rfl) <|
    .cons (((readsPrinted_text sha256).field _).readField rfl rfl) <|
    .cons (((readsPrinted_text extension).field _).readField rfl rfl) <|
    .cons (((readsPrinted_ofText? kind).field _).readField rfl rfl) <|
    .cons (((readsPrinted_ofText? triplet).field _).readField rfl rfl) <|
    .cons (((readsPrinted_ofNat? h).field _).readField rfl rfl) <|
    .cons (((readsPrinted_ofText? version).field _).readField rfl rfl) <| .nil _

end Binary

/-! ### Releases -/

namespace Release

theorem yields_read : Yields Release.read SizesFit := by
  let I (d : Draft) : Prop := ∀ files ∈ d.files, ∀ b ∈ files, b.SizeFits
  refine yields_record (I := I) ?_ (by simp [I]) ?_
  · simp only [fields, List.forall_mem_cons]
    refine ⟨.field (.true _) fun _ _ h _ => h, ?_, by simp⟩
    refine .field Binary.yields_read.array fun d files _ hfiles => ?_
    rintro _ ⟨rfl⟩
    exact hfiles
  · intro d r hd hfinish
    obtain rfl := Option.some.inj hfinish
    cases hfiles : d.files with
    | none => simp [SizesFit]
    | some files => simpa [SizesFit, hfiles] using hd files hfiles

theorem readsPrinted_toJson {r : Release} (h : r.SizesFit) :
    ReadsPrinted Release.read r.toJson r := by
  obtain ⟨stable, files⟩ := r
  have hfiles : ReadsPrinted (readArray Binary.read) (.array (files.map Binary.toJson)) files := by
    refine readsPrinted_array ?_
    rw [List.forall₂_map_left_iff, List.forall₂_same]
    exact fun b hb => Binary.readsPrinted_toJson (h b hb)
  refine readsPrinted_record (?_ : Threads _ _ _ (⟨some stable, some files⟩ : Draft)) rfl
  exact .cons (((readsPrinted_bool stable).field _).readField rfl rfl) <|
    .cons ((hfiles.field _).readField rfl rfl) <| .nil _

end Release

/-! ### Catalogs -/

namespace Catalog

variable {text : Text} {c : Catalog} {entries : List (Text × Release)}

/-- The entries of a document have sizes that can be read. -/
theorem sizesFit_of_readDocument
    (h : readDocument (readEntries Release.read) text = .ok entries) :
    ∀ entry ∈ entries, entry.2.SizesFit := by
  obtain ⟨⟨entries', rest⟩, hread, h⟩ := bind_eq_ok_iff.mp h
  dsimp only at h
  split_ifs at h
  obtain rfl := Except.ok.inj h
  exact Release.yields_read.entries hread

/-- **A printed catalog is read entry by entry**, and a later entry of a tag takes the place of an
earlier one. -/
theorem read_print (h : c.SizesFit) (l : Layout) (depth : Nat) :
    Catalog.read (c.toJson.print l depth) = .ok (ofEntries c.entries) := by
  have hentries : ReadsPrinted (readEntries Release.read) c.toJson c.entries :=
    readsPrinted_entries fun entry hentry => Release.readsPrinted_toJson (h entry hentry)
  exact map_eq_ok_iff.mpr ⟨_, hentries.document l depth, rfl⟩

end Catalog

end JuliaReleases
