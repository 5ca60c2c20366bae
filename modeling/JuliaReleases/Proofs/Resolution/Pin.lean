import JuliaReleases.Proofs.Request
import JuliaReleases.Proofs.Resolution.Answer

/-!
# A resolved version is pinned

The answer to a request can take the place of the request: it is answered with itself, whatever the
releases, the settings, the policy and the compat range are by then
(`JuliaReleases.resolved_version_is_pinned`).

An answer is the payload of a request that names it, or the written form of a version that was
selected. Either way it is read as a request that names just this text, which is
`JuliaReleases.Request.IsPinned`: a version in full has neither blanks around it nor a `v` in front
any more, and the name of a nightly build has no blanks around it and is no version in full.
-/

namespace JuliaReleases

namespace Request

variable {request text : Text}

/-- **Whether a text is its own answer**: as a request it names this very text. -/
def IsPinned (text : Text) : Prop :=
  read text = .exact text ∨ read text = .nightly text

/-- A written version is pinned. -/
theorem isPinned_of_read? {v : Version} (h : Version.read? text = some v) : IsPinned text := by
  obtain rfl := Version.write_of_read? h
  exact .inl (read_eq_exact_iff.mpr ⟨v, Tag.version?_eq_some_iff.mpr ⟨h, .self _⟩, rfl⟩)

/-- The version that a request names in full is pinned. -/
theorem isPinned_of_read_eq_exact (h : read request = .exact text) : IsPinned text := by
  obtain ⟨v, hv, rfl⟩ := read_eq_exact_iff.mp h
  exact isPinned_of_read? (Tag.version?_eq_some_iff.mp hv).1

/-- The nightly build that a request names is pinned. -/
theorem isPinned_of_read_eq_nightly (h : read request = .nightly text) : IsPinned text := by
  obtain ⟨rfl, hconcrete, hnightly⟩ := read_eq_nightly_iff.mp h
  exact .inr (read_eq_nightly_iff.mpr ⟨Text.trim_trim request, hconcrete, hnightly⟩)

end Request

section Resolve

variable {settings : Settings} {tags : List Text} {request answer : Text}
  {policy : PrereleasePolicy} {compat : Option CompatRange}

theorem Request.IsPinned.resolve_eq (h : Request.IsPinned answer) :
    resolve settings tags answer policy compat = .ok answer := by
  rcases h with h | h <;> simp only [resolve, h]

/-- Every answer is pinned. -/
theorem isPinned_of_resolve (h : resolve settings tags request policy compat = .ok answer) :
    Request.IsPinned answer := by
  cases answers_of_resolve_eq h with
  | exact hread => exact Request.isPinned_of_read_eq_exact hread
  | nightly hread => exact Request.isPinned_of_read_eq_nightly hread
  | least _ hv => exact Request.isPinned_of_read? (Tag.read?_write_of_mem_versions hv.1.1)
  | greatest _ hv => exact Request.isPinned_of_read? (Tag.read?_write_of_mem_versions hv.1.1)

end Resolve

/-- **A resolved version is pinned.** The answer to a request is answered with itself, whatever the
settings, the release tags, the policy and the compat range are. -/
theorem resolved_version_is_pinned {settings : Settings} {tags : List Text}
    {request answer : Text} {policy : PrereleasePolicy} {compat : Option CompatRange}
    (h : resolve settings tags request policy compat = .ok answer) (settings' : Settings)
    (tags' : List Text) (policy' : PrereleasePolicy) (compat' : Option CompatRange) :
    resolve settings' tags' answer policy' compat' = .ok answer :=
  (isPinned_of_resolve h).resolve_eq

/-- A prerelease that was selected as the least allowed version stays when nothing is published any
more, and a nightly build stays that was named between blanks. -/
theorem resolved_version_is_pinned_least :
    (resolve {} ["v1.7.0-rc1".toList, "v1.8.0".toList] "min".toList .included
        (some ⟨["^1.7".toList]⟩) = .ok "1.7.0-rc1".toList ∧
      resolve {} [] "1.7.0-rc1".toList .named none = .ok "1.7.0-rc1".toList) ∧
    resolve {} [] " 1.6-nightly ".toList .named none = .ok "1.6-nightly".toList ∧
      resolve {} ["1.6.7".toList] "1.6-nightly".toList .included none =
        .ok "1.6-nightly".toList := by
  have hleast : resolve {} ["v1.7.0-rc1".toList, "v1.8.0".toList] "min".toList .included
      (some ⟨["^1.7".toList]⟩) = .ok "1.7.0-rc1".toList := rfl
  have hnightly : resolve {} [] " 1.6-nightly ".toList .named none =
      .ok "1.6-nightly".toList := rfl
  exact ⟨⟨hleast, resolved_version_is_pinned hleast {} [] .named none⟩, hnightly,
    resolved_version_is_pinned hnightly {} _ .included none⟩

end JuliaReleases
