import JuliaReleases.Proofs.Resolution.Widening

/-!
# What the published releases do to an answer

A request is answered from the set of versions that the release tags name, and from nothing else
about the tags. Two theorems say what this means when the tags change:

* `JuliaReleases.resolution_depends_on_releases` – tags that list the same are as good as each
  other, whatever their order and spelling;
* `JuliaReleases.answer_moves_with_releases` – when releases are added, the greatest fitting one can
  only move up and the least one only down, and an answer that is still listed after others were
  taken away is still the answer.

The reason for the latter is that a version fits a request or it does not, whichever versions there
are besides it. So the candidates among fewer versions are those that are left
(`JuliaReleases.Resolution.candidates_subset`,
`JuliaReleases.Resolution.mem_candidates_of_mem_releases`), and what is the greatest or the least of
a set is so in every part of the set that it belongs to.
-/

namespace JuliaReleases

open Resolution

variable {settings : Settings} {tags tags' : List Text} {request answer : Text}
  {policy : PrereleasePolicy} {compat : Option CompatRange}

/-! ### The same releases -/

/-- Neither the order of the versions nor their number counts. -/
theorem Answers.of_mem_iff {versions versions' : List Version} {result : Except ResolveError Text}
    (hmem : ∀ v, v ∈ versions ↔ v ∈ versions')
    (h : Answers settings versions request policy compat result) :
    Answers settings versions' request policy compat result := by
  have hcandidates : candidates settings policy compat versions =
      candidates settings policy compat versions' := by
    funext r
    ext v
    simp only [candidates, Set.mem_ofPred_eq, hmem]
  cases h with
  | exact hread => exact .exact hread
  | nightly hread => exact .nightly hread
  | missingCompat hread hc => exact .missingCompat hread hc
  | least hread hv => exact .least hread (hcandidates ▸ hv)
  | greatest hread hv => exact .greatest hread (hcandidates ▸ hv)
  | noMatch hexact hnightly hmin hnone => exact .noMatch hexact hnightly hmin (hcandidates ▸ hnone)

theorem resolve_congr (h : Tag.releases tags = Tag.releases tags') :
    resolve settings tags request policy compat = resolve settings tags' request policy compat := by
  have hmem : ∀ v, v ∈ Tag.versions tags' ↔ v ∈ Tag.versions tags := by
    intro v
    rw [Tag.mem_versions_iff, Tag.mem_versions_iff, h]
  exact ((answers_of_resolve_eq rfl).of_mem_iff hmem).resolve_eq

/-- **Only what the tags list counts.** Lists of tags that list the same give every request the same
answer or the same error. They list the same if and only if one can be changed into the other by
reordering, by adding or removing tags that name no version or are there already, and by writing a
version with or without blanks and `v`. -/
theorem resolution_depends_on_releases (tags tags' : List Text) :
    (Tag.releases tags = Tag.releases tags' →
      ∀ (settings : Settings) (request : Text) (policy : PrereleasePolicy)
        (compat : Option CompatRange), resolve settings tags request policy compat =
          resolve settings tags' request policy compat) ∧
    (Tag.Relists tags tags' ↔ Tag.releases tags = Tag.releases tags') :=
  ⟨fun h _ _ _ _ => resolve_congr h, Tag.relists_iff⟩

/-- One release, once behind a blank and a `v` in front of a tag that names nothing, and once plain
and twice behind that tag. -/
theorem resolution_depends_on_releases_respelled :
    let tags := [" v1.6.7".toList, "latest".toList]
    let tags' := ["latest".toList, "1.6.7".toList, "1.6.7".toList]
    Tag.releases tags = Tag.releases tags' ∧ ∀ (settings : Settings) (request : Text)
      (policy : PrereleasePolicy) (compat : Option CompatRange),
      resolve settings tags request policy compat =
        resolve settings tags' request policy compat := by
  intro tags tags'
  have hrespell : Tag.Relists tags ["1.6.7".toList, "latest".toList] :=
    @Tag.Relists.respell "1.6.7".toList _ _ _ rfl
      (@Tag.Spells.prefixed _ [' '] [] (List.forall_mem_singleton.mpr rfl) (List.forall_mem_nil _))
      (.self _)
  have hrelists : Tag.Relists tags tags' :=
    (hrespell.trans (.duplicate List.mem_cons_self)).trans (.reorder (by decide))
  have hreleases := (resolution_depends_on_releases tags tags').2.mp hrelists
  exact ⟨hreleases, (resolution_depends_on_releases tags tags').1 hreleases⟩

/-! ### More releases -/

/-- How the answer to a request may move when releases are added: down for `min`, up for every other
request that selects a version, and not at all for a request that names its answer. -/
def Request.MovesWithReleases (request : Request) (answer answer' : Text) : Prop :=
  match request with
  | .range _ | .lts | .pre => Version.TextLE answer answer'
  | .min => Version.TextLE answer' answer
  | .exact _ | .nightly _ => answer' = answer

namespace Resolution

theorem candidates_subset (h : tags ⊆ tags') {request : Request} :
    candidates settings policy compat (Tag.versions tags) request ⊆
      candidates settings policy compat (Tag.versions tags') request :=
  fun _ hv => ⟨List.filterMap_subset _ h hv.1, hv.2⟩

/-- A candidate is still one after other versions were taken away. -/
theorem mem_candidates_of_mem_releases {v : Version} {request : Request}
    (hv : v ∈ candidates settings policy compat (Tag.versions tags') request)
    (h : v.write ∈ Tag.releases tags) :
    v ∈ candidates settings policy compat (Tag.versions tags) request :=
  ⟨Tag.mem_versions_iff.mpr ⟨Tag.read?_write_of_mem_versions hv.1, h⟩, hv.2⟩

end Resolution

/-- The greatest candidate moves up. -/
theorem exists_resolve_greatest (hsub : tags ⊆ tags') (h : Request.read request = .lts ∨
      Request.read request = .pre ∨ (∃ text, Request.read request = .range text))
    (hanswer : resolve settings tags request policy compat = .ok answer) :
    ∃ answer', resolve settings tags' request policy compat = .ok answer' ∧
      Version.TextLE answer answer' := by
  obtain ⟨v, hv, rfl⟩ := exists_candidate_of_resolve_eq_ok (by grind) (by grind) hanswer
  exact exists_resolve_textLE h (candidates_subset hsub hv)

/-- The least candidate moves down. -/
theorem exists_resolve_least (hsub : tags ⊆ tags') (h : Request.read request = .min)
    (hanswer : resolve settings tags request policy compat = .ok answer) :
    ∃ answer', resolve settings tags' request policy compat = .ok answer' ∧
      Version.TextLE answer' answer := by
  obtain ⟨v, hv, rfl⟩ := exists_candidate_of_resolve_eq_ok (by simp [h]) (by simp [h]) hanswer
  rw [h] at hv
  exact exists_resolve_textGE h (candidates_subset hsub hv)

/-- An answer that is still listed is still the answer. -/
theorem Answers.of_subset (hsub : tags ⊆ tags') (hlisted : answer ∈ Tag.releases tags)
    (h : Answers settings (Tag.versions tags') request policy compat (.ok answer)) :
    Answers settings (Tag.versions tags) request policy compat (.ok answer) := by
  cases h with
  | exact hread => exact .exact hread
  | nightly hread => exact .nightly hread
  | least hread hv =>
    exact .least hread ⟨mem_candidates_of_mem_releases hv.1 hlisted,
      fun w hw => hv.2 (candidates_subset hsub hw)⟩
  | greatest hread hv =>
    exact .greatest hread ⟨mem_candidates_of_mem_releases hv.1 hlisted,
      fun w hw => hv.2 (candidates_subset hsub hw)⟩

/-- **Releases move an answer in one direction only.** A request that has an answer has one when
releases are added, which is no smaller for a range, `lts` and `pre`, no greater for `min`, and the
same for a request that names its answer. And an answer that is still listed after releases were
taken away is still the answer. -/
theorem answer_moves_with_releases {tags tags' : List Text} (hsub : tags ⊆ tags')
    (settings : Settings) (request : Text) (policy : PrereleasePolicy)
    (compat : Option CompatRange) (answer : Text) :
    (resolve settings tags request policy compat = .ok answer →
      ∃ answer', resolve settings tags' request policy compat = .ok answer' ∧
        (Request.read request).MovesWithReleases answer answer') ∧
    (resolve settings tags' request policy compat = .ok answer → answer ∈ Tag.releases tags →
      resolve settings tags request policy compat = .ok answer) := by
  constructor
  · intro h
    cases hread : Request.read request with
    | exact | nightly =>
      -- The releases play no role.
      simp only [resolve, hread] at h
      exact ⟨answer, by simpa only [resolve, hread] using h, rfl⟩
    | min => exact exists_resolve_least hsub hread h
    | lts => exact exists_resolve_greatest hsub (.inl hread) h
    | pre => exact exists_resolve_greatest hsub (.inr (.inl hread)) h
    | range text => exact exists_resolve_greatest hsub (.inr (.inr ⟨text, hread⟩)) h
  · intro h hlisted
    exact ((answers_of_resolve_eq h).of_subset hsub hlisted).resolve_eq

/-- A new prerelease moves the answer to `pre`, an old release that was forgotten the answer to
`min`; the answer to a range that has neither as a member stays when the two are taken away. -/
theorem answer_moves_with_releases_two :
    let tags := ["v1.6.7".toList, "1.7.2".toList]
    let tags' := ["1.8.0-rc1".toList, "1.7.2".toList, "v1.6.7".toList, "v1.5.4".toList]
    let compat : CompatRange := ⟨["^2".toList, "^1.5".toList]⟩
    tags ⊆ tags' ∧
    (resolve {} tags "pre".toList .named none = .ok "1.7.2".toList ∧
      ∃ answer', resolve {} tags' "pre".toList .named none = .ok answer' ∧
        (Request.read "pre".toList).MovesWithReleases "1.7.2".toList answer') ∧
    (resolve {} tags "min".toList .named (some compat) = .ok "1.6.7".toList ∧
      ∃ answer', resolve {} tags' "min".toList .named (some compat) = .ok answer' ∧
        (Request.read "min".toList).MovesWithReleases "1.6.7".toList answer') ∧
    resolve {} tags' "~1.6".toList .named none = .ok "1.6.7".toList ∧
      "1.6.7".toList ∈ Tag.releases tags ∧
      resolve {} tags "~1.6".toList .named none = .ok "1.6.7".toList := by
  have hsub : ["v1.6.7".toList, "1.7.2".toList] ⊆
      ["1.8.0-rc1".toList, "1.7.2".toList, "v1.6.7".toList, "v1.5.4".toList] := by decide
  have hlisted : "1.6.7".toList ∈ Tag.releases ["v1.6.7".toList, "1.7.2".toList] :=
    ⟨_, List.mem_cons_self, rfl, rfl⟩
  exact ⟨hsub, ⟨rfl, (answer_moves_with_releases hsub {} "pre".toList .named none _).1 rfl⟩,
    ⟨rfl, (answer_moves_with_releases hsub {} "min".toList .named
      (some ⟨["^2".toList, "^1.5".toList]⟩) _).1 rfl⟩, rfl, hlisted,
    (answer_moves_with_releases hsub {} "~1.6".toList .named none _).2 rfl hlisted⟩

end JuliaReleases
