import JuliaReleases.Proofs.Range.Lowering
import JuliaReleases.Proofs.Resolution.Answer
import JuliaReleases.Proofs.Version.Tag

/-!
# What including prereleases does to an answer

A request that is answered without prereleases is answered with them, too. By
`JuliaReleases.Range.widens_ofText` a range, and every arm of a compat range, keeps its members, so
a request selects from more versions than before
(`JuliaReleases.Resolution.candidates_subset_included`). Hence the greatest one can only move up and
the least one can only move down; the other requests do not depend on ranges and keep their answers.
This is `JuliaReleases.including_prereleases_widens`.

Answers are texts, so the comparison of two answers, `JuliaReleases.Version.TextLE`, reads them. It
can do so because a version that a tag names is written in a form that is read back
(`JuliaReleases.Tag.read?_write_of_mem_versions`).
-/

namespace JuliaReleases

/-! ### Answers that move -/

/-- Whether a text names a version that comes no later than the one that another text names. -/
def Version.TextLE (text text' : Text) : Prop :=
  ∃ v w, Version.read? text = some v ∧ Version.read? text' = some w ∧ v ≤ w

/-- How the answer to a request may move when prereleases are included: up for a range, down for
`min`, and not at all for any other request. -/
def Request.Moves (request : Request) (answer answer' : Text) : Prop :=
  match request with
  | .range _ => Version.TextLE answer answer'
  | .min => Version.TextLE answer' answer
  | .exact _ | .nightly _ | .lts | .pre => answer' = answer

theorem textLE_of_mem_versions {tags : List Text} {v w : Version} (hv : v ∈ Tag.versions tags)
    (hw : w ∈ Tag.versions tags) (h : v ≤ w) : Version.TextLE v.write w.write :=
  ⟨v, w, Tag.read?_write_of_mem_versions hv, Tag.read?_write_of_mem_versions hw, h⟩

/-! ### Ranges that widen -/

theorem Range.exists_read_included_of_mem {text : Text} {r : Range} {v : Version}
    (h : Range.read .named text = .ok r) (hv : v ∈ r) :
    ∃ r', Range.read .included text = .ok r' ∧ v ∈ r' := by
  have hnamed : Range.ofText .named text = .ok r := mapError_eq_ok_iff.mpr h
  have hwidens := Range.widens_ofText text
  rw [hnamed] at hwidens
  generalize hincluded : Range.ofText .included text = result at hwidens
  cases hwidens with
  | ok mem _ => exact ⟨_, mapError_eq_ok_iff.mp hincluded, mem v hv⟩

/-- A version that fits a request fits it with prereleases included. -/
theorem Request.Fits.included {settings : Settings} {compat : Option CompatRange}
    {request : Request} {v : Version} (h : request.Fits settings .named compat v) :
    request.Fits settings .included compat v := by
  cases request with
  | exact | nightly => exact h
  | lts | pre => exact h
  | range text =>
    obtain ⟨r, hr, hv⟩ := h
    exact Range.exists_read_included_of_mem hr hv
  | min =>
    obtain ⟨c, rfl, arm, harm, r, hr, hv⟩ := h
    exact ⟨c, rfl, arm, harm, Range.exists_read_included_of_mem hr hv⟩

namespace Resolution

variable {settings : Settings} {tags : List Text} {request : Text} {compat : Option CompatRange}
  {v : Version}

/-- No candidate comes after the greatest one. -/
theorem exists_resolve_textLE {policy : PrereleasePolicy} (h : Request.read request = .lts ∨
      Request.read request = .pre ∨ (∃ text, Request.read request = .range text))
    (hv : v ∈ candidates settings policy compat (Tag.versions tags) (Request.read request)) :
    ∃ answer, resolve settings tags request policy compat = .ok answer ∧
      Version.TextLE v.write answer := by
  obtain ⟨w, hw, hle, hanswer⟩ := exists_resolve_ge h hv
  exact ⟨w.write, hanswer, textLE_of_mem_versions hv.1 hw.1 hle⟩

/-- No candidate comes before the least one. -/
theorem exists_resolve_textGE {policy : PrereleasePolicy} (h : Request.read request = .min)
    (hv : v ∈ candidates settings policy compat (Tag.versions tags) .min) :
    ∃ answer, resolve settings tags request policy compat = .ok answer ∧
      Version.TextLE answer v.write := by
  obtain ⟨w, hw, hle, hanswer⟩ := exists_resolve_le h hv
  exact ⟨w.write, hanswer, textLE_of_mem_versions hw.1 hv.1 hle⟩

theorem candidates_subset_included {versions : List Version} {request : Request} :
    candidates settings .named compat versions request ⊆
      candidates settings .included compat versions request :=
  fun _ hv => ⟨hv.1, hv.2.included⟩

/-- The greatest member of a range moves up. -/
theorem exists_resolve_range {range : Text} (hread : Request.read request = .range range)
    (hv : v ∈ candidates settings .named compat (Tag.versions tags) (.range range)) :
    ∃ answer', resolve settings tags request .included compat = .ok answer' ∧
      Version.TextLE v.write answer' := by
  rw [← hread] at hv
  exact exists_resolve_textLE (.inr (.inr ⟨range, hread⟩)) (candidates_subset_included hv)

/-- The least version that a compat range admits moves down. -/
theorem exists_resolve_min (hread : Request.read request = .min)
    (hv : v ∈ candidates settings .named compat (Tag.versions tags) .min) :
    ∃ answer', resolve settings tags request .included compat = .ok answer' ∧
      Version.TextLE answer' v.write :=
  exists_resolve_textGE hread (candidates_subset_included hv)

end Resolution

open Resolution in
/-- **Including prereleases only ever widens.** A text is a range with them if and only if it is one
without them, and has the same fault otherwise; the range keeps its members and gets no full release
that it did not have. A request that has an answer without prereleases has one with them, which is
no smaller for a range, no greater for `min`, and the same for any other request. -/
theorem including_prereleases_widens :
    (∀ text, Range.Widens (Range.ofText .named text) (Range.ofText .included text)) ∧
    ∀ (settings : Settings) (tags : List Text) (request : Text) (compat : Option CompatRange)
      (answer : Text), resolve settings tags request .named compat = .ok answer →
      ∃ answer', resolve settings tags request .included compat = .ok answer' ∧
        (Request.read request).Moves answer answer' := by
  refine ⟨Range.widens_ofText, fun settings tags request compat answer h => ?_⟩
  cases hread : Request.read request with
  | exact | nightly | lts | pre =>
    -- The policy plays no role.
    simp only [resolve, hread] at h
    exact ⟨answer, by simpa only [resolve, hread] using h, rfl⟩
  | range range =>
    obtain ⟨v, hv, rfl⟩ := exists_candidate_of_resolve_eq_ok (by simp [hread]) (by simp [hread]) h
    exact exists_resolve_range hread (hread ▸ hv)
  | min =>
    obtain ⟨v, hv, rfl⟩ := exists_candidate_of_resolve_eq_ok (by simp [hread]) (by simp [hread]) h
    exact exists_resolve_min hread (hread ▸ hv)

/-- A range of which the greatest member is a prerelease, and a compat range of which the least
member is one. -/
theorem including_prereleases_widens_caret :
    let tags := ["v1.7.0-rc1".toList, "v1.7.0".toList, "v1.8.0-rc1".toList]
    let compat : CompatRange := ⟨["^1.7".toList]⟩
    (resolve {} tags "1".toList .named none = .ok "1.7.0".toList ∧
      ∃ answer', resolve {} tags "1".toList .included none = .ok answer' ∧
        (Request.read "1".toList).Moves "1.7.0".toList answer') ∧
    resolve {} tags "min".toList .named (some compat) = .ok "1.7.0".toList ∧
      ∃ answer', resolve {} tags "min".toList .included (some compat) = .ok answer' ∧
        (Request.read "min".toList).Moves "1.7.0".toList answer' :=
  ⟨⟨rfl, including_prereleases_widens.2 {} _ "1".toList none "1.7.0".toList rfl⟩, rfl,
    including_prereleases_widens.2 {} _ "min".toList (some ⟨["^1.7".toList]⟩) "1.7.0".toList rfl⟩

end JuliaReleases
