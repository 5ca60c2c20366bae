import Mathlib
import JuliaReleases.Proofs.Project.Fields

/-!
# What counts in a project file

The entries of a project are made field by field (`JuliaReleases.Project.entries_eq`), and fields of
other tables make none. So whatever else stands in a document can be taken out of it, and the range
for Julia comes from the first field that looks like the one for Julia. Such a field has this name,
too. Both are in `JuliaReleases.only_compat_table_counts`.
-/

namespace JuliaReleases

namespace Project

open Toml (Document Field Key Pair SimpleKey StringLiteral Table fieldsOfRootPair fieldsOfTable
  table_of_mem_fieldsOfRootPair table_of_mem_fieldsOfTable)

/-! ### Other tables -/

/-- A pair above all headers whose key is the name of the compat table, or has two parts of which
the first one is. -/
def IsCompatPair (pair : Pair) : Prop :=
  pair.1.first.name? = some compatTable ∧ pair.1.others.length ≤ 1

/-- A table below a header with single brackets and the name of the compat table. -/
def IsCompatTable (table : Table) : Prop :=
  table.isElement = false ∧ table.key.first.name? = some compatTable ∧ table.key.others = []

/-- A field that makes an entry is in a table that has the name of the compat table. -/
theorem entryOfField_of_name?_ne {field : Field} (h : field.table.WellFormed)
    (hname : field.table.name? ≠ some compatTable) : entryOfField field = .ok [] :=
  entryOfField_of_ne fun hlooks =>
    hname (SimpleKey.name?_of_looks h isBare_compatTable hlooks).2

section Frame

variable {d : Document} (h : d.WellFormed)
include h

theorem entriesOfDocument_without_pair {before after : List Pair} {pair : Pair}
    (hpairs : d.pairs = before ++ pair :: after) (hpair : ¬ IsCompatPair pair) :
    entriesOfDocument { d with pairs := before ++ after } = entriesOfDocument d := by
  have hwithout : Document.WellFormed { d with pairs := before ++ after } := by
    refine ⟨fun other hother => h.pairs other ?_, h.headers⟩
    rw [hpairs]
    exact List.mem_append.mpr ((List.mem_append.mp hother).imp_right (List.mem_cons_of_mem _))
  have hnil : ∀ field ∈ fieldsOfRootPair pair, entryOfField field = .ok [] := by
    intro field hfield
    obtain ⟨htable, hlength, -⟩ := table_of_mem_fieldsOfRootPair hfield
    refine entryOfField_of_name?_ne ?_ fun hname => hpair ⟨htable ▸ hname, hlength⟩
    exact htable ▸ h.pairs pair (by simp [hpairs]) _ List.mem_cons_self
  rw [entriesOfDocument_eq h, entriesOfDocument_eq hwithout]
  simpa [Document.fields, hpairs] using (flatten_mapM_append_of_nil hnil
    (before.flatMap fieldsOfRootPair)
    (after.flatMap fieldsOfRootPair ++ d.tables.flatMap fieldsOfTable)).symm

theorem entriesOfDocument_without_table {before after : List Table} {table : Table}
    (htables : d.tables = before ++ table :: after) (htable : ¬ IsCompatTable table) :
    entriesOfDocument { d with tables := before ++ after } = entriesOfDocument d := by
  have hwithout : Document.WellFormed { d with tables := before ++ after } := by
    refine ⟨h.pairs, fun other hother => h.headers other ?_⟩
    rw [htables]
    exact List.mem_append.mpr ((List.mem_append.mp hother).imp_right (List.mem_cons_of_mem _))
  have hnil : ∀ field ∈ fieldsOfTable table, entryOfField field = .ok [] := by
    intro field hfield
    obtain ⟨hfirst, hothers, helement, -⟩ := table_of_mem_fieldsOfTable hfield
    refine entryOfField_of_name?_ne ?_ fun hname => htable ⟨helement, hfirst ▸ hname, hothers⟩
    exact hfirst ▸ h.headers table (by simp [htables]) _ List.mem_cons_self
  rw [entriesOfDocument_eq h, entriesOfDocument_eq hwithout]
  simpa [Document.fields, htables] using (flatten_mapM_append_of_nil hnil
    (d.pairs.flatMap fieldsOfRootPair ++ before.flatMap fieldsOfTable)
    (after.flatMap fieldsOfTable)).symm

end Frame

/-! ### The field for Julia -/

variable {field : Field} {es : List CompatEntry} {e : CompatEntry}

theorem exists_literal_of_mem_entryOfValue {name : Text} {value : Toml.Value}
    (h : entryOfValue name value = .ok es) (he : e ∈ es) : e.name = name ∧
      ∃ literal, value = .string literal ∧ literal.value? = some e.specifier := by
  cases value with
  | string literal =>
    obtain ⟨specifier, hvalue, rfl⟩ := entryOfValue_eq_ok_iff.mp h
    rw [List.mem_singleton.mp he]
    exact ⟨rfl, literal, rfl, hvalue⟩
  | inlineTable pairs => exact absurd (Except.ok.inj h ▸ he) List.not_mem_nil
  | other => exact absurd (Except.ok.inj h ▸ he) List.not_mem_nil

/-- An entry comes from a string in the compat table, and has the name that is seen behind a point,
and otherwise the name that the field has. -/
theorem exists_literal_of_mem_entryOfField (h : entryOfField field = .ok es) (he : e ∈ es) :
    field.table.looks = [compatTable] ∧ (field.dotted = true → field.name.looks = [e.name]) ∧
      (field.dotted = false → field.name.name? = some e.name) ∧
      ∃ literal, field.value = .string literal ∧ literal.value? = some e.specifier := by
  unfold entryOfField at h
  split_ifs at h with hlooks hdotted
  · split at h
    · next name hname =>
      obtain ⟨rfl, hvalue⟩ := exists_literal_of_mem_entryOfValue h he
      exact ⟨hlooks, fun _ => hname, fun hfalse => by simp [hdotted] at hfalse, hvalue⟩
    · exact absurd (Except.ok.inj h ▸ he) List.not_mem_nil
  · obtain ⟨name, hname, hentry⟩ := bind_eq_ok_iff.mp h
    obtain ⟨rfl, hvalue⟩ := exists_literal_of_mem_entryOfValue hentry he
    exact ⟨hlooks, fun htrue => absurd htrue hdotted, fun _ => keyName_eq_ok_iff.mp hname, hvalue⟩
  · exact absurd (Except.ok.inj h ▸ he) List.not_mem_nil

/-- **A field at the keys `compat` and `julia`.** -/
def IsJuliaField (field : Field) : Prop :=
  field.table.name? = some compatTable ∧ field.name.name? = some julia

section WellFormed

variable (htable : field.table.WellFormed) (hname : field.dotted = true → field.name.WellFormed)
include htable hname

/-- What makes an entry for Julia is a field for Julia. -/
theorem isJuliaField_of_mem_entryOfField (h : entryOfField field = .ok es) (he : e ∈ es)
    (hjulia : e.name = julia) : IsJuliaField field := by
  obtain ⟨hlooks, hseen, hdecoded, -⟩ := exists_literal_of_mem_entryOfField h he
  refine ⟨(SimpleKey.name?_of_looks htable isBare_compatTable hlooks).2, ?_⟩
  rw [hjulia] at hseen hdecoded
  cases hdotted : field.dotted with
  | false => exact hdecoded hdotted
  | true => exact (SimpleKey.name?_of_looks (hname hdotted) isBare_julia (hseen hdotted)).2

/-- A field for Julia makes an entry for Julia if it is a string and its keys are written without
escapes. -/
theorem exists_mem_entryOfField (h : entryOfField field = .ok es) (hjulia : IsJuliaField field)
    {literal : StringLiteral} (hvalue : field.value = .string literal)
    (hescape : '\\' ∉ field.table.source ∧ '\\' ∉ field.name.source) :
    ∃ e ∈ es, e.name = julia := by
  have hentry : entryOfValue julia (.string literal) = .ok es := by
    have hlooks := SimpleKey.looks_of_name? htable isBare_compatTable hjulia.1 hescape.1
    rw [entryOfField, if_pos hlooks, hvalue] at h
    split_ifs at h with hdotted
    · rwa [SimpleKey.looks_of_name? (hname hdotted) isBare_julia hjulia.2 hescape.2] at h
    · obtain ⟨name, hkey, hentry⟩ := bind_eq_ok_iff.mp h
      rw [keyName_eq_ok_iff.mpr hjulia.2, Except.ok.injEq] at hkey
      exact hkey ▸ hentry
  obtain ⟨specifier, -, rfl⟩ := entryOfValue_eq_ok_iff.mp hentry
  exact ⟨_, List.mem_singleton_self _, rfl⟩

end WellFormed

theorem compatRange_eq {text : Text} {es : List CompatEntry} (h : entries text = .ok es) :
    compatRange text = rangeOfEntries es := by
  rw [compatRange, h]
  rfl

theorem rangeOfEntries_of_find? {es : List CompatEntry} {specifier : Text}
    (h : es.find? (·.name = julia) = some ⟨julia, specifier⟩) :
    rangeOfEntries es = if Specifier.clauses specifier = [] then .error (.blankEntry specifier)
      else (CompatRange.ofSpecifier specifier).mapError .range := by
  rw [rangeOfEntries, h]

end Project

open Project in
/-- **Only the compat table counts.** What is read from a document stays the same without any pair
or table that is not the compat table. And if there is an entry for Julia, then the first one of
them states the range. It is the text of a string at the keys `compat` and `julia`. A document with
another string at these keys in front of it defines a key twice, and even then writes one of the two
keys with an escape. -/
theorem only_compat_table_counts {text : Text} {d : Toml.Document}
    (h : Toml.Document.read? text = some d) :
    (∀ before pair after, d.pairs = before ++ pair :: after → ¬ IsCompatPair pair →
      entriesOfDocument { d with pairs := before ++ after } = entries text) ∧
    (∀ before table after, d.tables = before ++ table :: after → ¬ IsCompatTable table →
      entriesOfDocument { d with tables := before ++ after } = entries text) ∧
    ∀ es, entries text = .ok es →
      ((∀ e ∈ es, e.name ≠ julia) ∧ compatRange text = .ok .any) ∨
      ∃ before field after literal specifier, d.fields = before ++ field :: after ∧
        IsJuliaField field ∧ field.value = .string literal ∧ literal.value? = some specifier ∧
        es.find? (·.name = julia) = some ⟨julia, specifier⟩ ∧
        (compatRange text =
          if Specifier.clauses specifier = [] then .error (.blankEntry specifier)
          else (CompatRange.ofSpecifier specifier).mapError .range) ∧
        ∀ other ∈ before, IsJuliaField other → (∃ literal, other.value = .string literal) →
          '\\' ∈ other.table.source ∨ '\\' ∈ other.name.source := by
  have hwf := Toml.Document.wellFormed_of_read? h
  have hentries : entries text = entriesOfDocument d := by
    rw [entries, h]
  refine ⟨fun before pair after hpairs hpair => ?_, fun before table after htables htable => ?_,
    fun es hes => ?_⟩
  · rw [entriesOfDocument_without_pair hwf hpairs hpair, hentries]
  · rw [entriesOfDocument_without_table hwf htables htable, hentries]
  have hfields := (entries_eq h).symm.trans hes
  cases hfind : es.find? (·.name = julia) with
  | none =>
    refine .inl ⟨by simpa using hfind, ?_⟩
    rw [compatRange_eq hes, rangeOfEntries, hfind]
  | some e =>
    have hjulia : e.name = julia := by simpa using List.find?_some hfind
    obtain ⟨before, field, after, results, hsplit, hfield, hmem, hbefore⟩ :=
      exists_first_of_flatten_mapM (p := (·.name = julia)) hfields hfind
    have hin : ∀ other ∈ before ++ [field], other ∈ d.fields := fun other hother => by
      rw [hsplit, List.append_cons]
      exact List.mem_append_left _ hother
    have hkeys := Toml.wellFormed_of_mem_fields hwf (hin field (by simp))
    obtain ⟨-, -, -, literal, hliteral, hvalue⟩ := exists_literal_of_mem_entryOfField hfield hmem
    have hentry : some e = some ⟨julia, e.specifier⟩ := by rw [← hjulia]
    refine .inr ⟨before, field, after, literal, e.specifier, hsplit,
      isJuliaField_of_mem_entryOfField hkeys.1 hkeys.2 hfield hmem hjulia, hliteral, hvalue, hentry,
      (compatRange_eq hes).trans (rangeOfEntries_of_find? (hfind.trans hentry)), ?_⟩
    -- A field in front that is written without escapes would have been the first one seen.
    rintro other hother hfor ⟨literal', hliteral'⟩
    by_contra hescape
    have hkeys := Toml.wellFormed_of_mem_fields hwf (hin other (by simp [hother]))
    obtain ⟨others, hread, hnone⟩ := hbefore other hother
    obtain ⟨e', he', hjulia'⟩ := exists_mem_entryOfField hkeys.1 hkeys.2 hread hfor hliteral'
      (not_or.mp hescape)
    exact hnone e' he' hjulia'

/-- A table for dependencies, in which the entry for Julia stands for no text. -/
theorem only_compat_table_counts_deps :
    let text := "[compat]\njulia = '1.6'\n[deps]\njulia = \"\\ud800\"\n".toList
    ∃ d, Toml.Document.read? text = some d ∧
      Project.entriesOfDocument { d with tables := d.tables.take 1 } = Project.entries text ∧
      Project.entries text = .ok [⟨"julia".toList, "1.6".toList⟩] ∧
      Project.compatRange text = .ok ⟨["^1.6".toList]⟩ := by
  have hread : Toml.Document.read?
      "[compat]\njulia = '1.6'\n[deps]\njulia = \"\\ud800\"\n".toList = some
        { pairs := []
          tables :=
            [{ isElement := false
               key := { first := .bare "compat".toList }
               pairs := [({ first := .bare "julia".toList },
                 .string ⟨.single, false, "1.6".toList⟩)] },
              { isElement := false
                key := { first := .bare "deps".toList }
                pairs := [({ first := .bare "julia".toList },
                  .string ⟨.double, false, "\\ud800".toList⟩)] }] } := by
    cbv
  intro text
  have hentries : Project.entries text = .ok [⟨"julia".toList, "1.6".toList⟩] := by decide +kernel
  refine ⟨_, hread, (only_compat_table_counts hread).2.1 [_] _ [] rfl
    fun h => absurd h.2.1 (by decide), hentries, ?_⟩
  -- Of the two ways to a range, there is only the one through the entry for Julia.
  rcases (only_compat_table_counts hread).2.2 _ hentries with
    ⟨hnone, -⟩ | ⟨before, field, after, literal, specifier, -, -, -, -, hfind, hrange, -⟩
  · exact absurd rfl (hnone _ List.mem_cons_self)
  · obtain rfl : "1.6".toList = specifier := (CompatEntry.mk.inj (Option.some.inj hfind)).2
    rw [hrange]
    decide +kernel

end JuliaReleases
