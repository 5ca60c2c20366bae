import JuliaReleases.Proofs.Version.Order
import JuliaReleases.Resolution

/-!
# What a request is answered with

`JuliaReleases.Answers` says, without computing anything, what the answer to a request has to be: a
version that is named in full, the least or the greatest of the versions that the request selects
from, or an error. `JuliaReleases.resolve_eq_iff_answers` shows that `JuliaReleases.resolve` gives
this answer and no other. It goes by the kind of the request; which texts are of which kind is said
by `JuliaReleases.Request.read_eq_min_iff` and its neighbours.

What a request selects from is `JuliaReleases.Resolution.candidates`, and each way of selecting is
one statement about this set, such as `JuliaReleases.Resolution.maximizes_lts?`. A selection that
fails says as much as one that succeeds, namely that there is no candidate; this is why the
statements are about `JuliaReleases.Version.Maximizes` and `JuliaReleases.Version.Minimizes`, which
cover both.
-/

namespace JuliaReleases

/-! ### Extreme versions -/

namespace Version

/-- Being the greatest of some versions, or nothing if there are none. -/
def Maximizes (S : Set Version) : Option Version → Prop
  | some v => IsGreatest S v
  | none => S = ∅

/-- Being the least of some versions, or nothing if there are none. -/
def Minimizes (S : Set Version) : Option Version → Prop
  | some v => IsLeast S v
  | none => S = ∅

variable {S : Set Version} {versions : List Version}

theorem maximizes_max? (h : ∀ v, v ∈ versions ↔ v ∈ S) : Maximizes S versions.max? := by
  cases hmax : versions.max? with
  | none =>
    obtain rfl : versions = [] := List.max?_eq_none_iff.mp hmax
    exact Set.eq_empty_iff_forall_notMem.mpr fun v hv => List.not_mem_nil ((h v).mpr hv)
  | some v =>
    obtain ⟨hv, hle⟩ := List.max?_eq_some_iff.mp hmax
    exact ⟨(h v).mp hv, fun w hw => hle w ((h w).mpr hw)⟩

theorem minimizes_min? (h : ∀ v, v ∈ versions ↔ v ∈ S) : Minimizes S versions.min? := by
  cases hmin : versions.min? with
  | none =>
    obtain rfl : versions = [] := List.min?_eq_none_iff.mp hmin
    exact Set.eq_empty_iff_forall_notMem.mpr fun v hv => List.not_mem_nil ((h v).mpr hv)
  | some v =>
    obtain ⟨hv, hle⟩ := List.min?_eq_some_iff.mp hmin
    exact ⟨(h v).mp hv, fun w hw => hle w ((h w).mpr hw)⟩

/-- A set has one greatest element at most. -/
theorem Maximizes.unique {o o' : Option Version} (h : Maximizes S o) (h' : Maximizes S o') :
    o = o' := by
  rcases o with _ | v <;> rcases o' with _ | w
  · rfl
  · exact absurd h'.1 (Set.eq_empty_iff_forall_notMem.mp h w)
  · exact absurd h.1 (Set.eq_empty_iff_forall_notMem.mp h' v)
  · exact congrArg some (IsGreatest.unique h h')

/-- A set has one least element at most. -/
theorem Minimizes.unique {o o' : Option Version} (h : Minimizes S o) (h' : Minimizes S o') :
    o = o' := by
  rcases o with _ | v <;> rcases o' with _ | w
  · rfl
  · exact absurd h'.1 (Set.eq_empty_iff_forall_notMem.mp h w)
  · exact absurd h.1 (Set.eq_empty_iff_forall_notMem.mp h' v)
  · exact congrArg some (IsLeast.unique h h')

/-- The least of the least members of several sets is the least member of their union. -/
theorem minimizes_min?_filterMap {α : Type} {as : List α} {f : α → Option Version}
    {T : α → Set Version} (h : ∀ a, Minimizes (T a) (f a)) :
    Minimizes {v | ∃ a ∈ as, v ∈ T a} (as.filterMap f).min? := by
  cases hmin : (as.filterMap f).min? with
  | none =>
    rw [List.min?_eq_none_iff, List.filterMap_eq_nil_iff] at hmin
    refine Set.eq_empty_iff_forall_notMem.mpr ?_
    rintro v ⟨a, ha, hv⟩
    have hempty := h a
    rw [hmin a ha] at hempty
    exact Set.eq_empty_iff_forall_notMem.mp hempty v hv
  | some v =>
    obtain ⟨hv, hle⟩ := List.min?_eq_some_iff.mp hmin
    obtain ⟨a, ha, hav⟩ := List.mem_filterMap.mp hv
    have hleast := h a
    rw [hav] at hleast
    refine ⟨⟨a, ha, hleast.1⟩, ?_⟩
    rintro w ⟨b, hb, hw⟩
    -- The least member of the set of `b` lies between `v` and `w`.
    have hbmin := h b
    cases hfb : f b with
    | none =>
      rw [hfb] at hbmin
      exact absurd hw (Set.eq_empty_iff_forall_notMem.mp hbmin w)
    | some u =>
      rw [hfb] at hbmin
      exact (hle u (List.mem_filterMap.mpr ⟨b, hb, hfb⟩)).trans (hbmin.2 hw)

end Version

/-! ### What a request selects from -/

/-- Whether some arm of a compat range is a range with a certain member. -/
def CompatRange.Admits (policy : PrereleasePolicy) (c : CompatRange) (v : Version) : Prop :=
  ∃ arm ∈ c.arms, ∃ r, Range.read policy arm = .ok r ∧ v ∈ r

/-- Whether a version fits a request. The policy on prereleases matters to ranges and compat arms
only, the compat range to `min` only; a version that is named in full selects nothing. -/
def Request.Fits (settings : Settings) (policy : PrereleasePolicy) (compat : Option CompatRange) :
    Request → Version → Prop
  | .exact _, _ | .nightly _, _ => False
  | .min, v => ∃ c, compat = some c ∧ c.Admits policy v
  | .lts, v => settings.ltsLine? = some (v.major, v.minor) ∧ ¬ v.IsPrerelease
  | .pre, v => v.major = settings.currentMajor
  | .range text, v => ∃ r, Range.read policy text = .ok r ∧ v ∈ r

namespace Resolution

variable {settings : Settings} {policy : PrereleasePolicy} {compat : Option CompatRange}
  {versions : List Version}

/-- The versions that a request selects from. -/
def candidates (settings : Settings) (policy : PrereleasePolicy) (compat : Option CompatRange)
    (versions : List Version) (request : Request) : Set Version :=
  {v | v ∈ versions ∧ request.Fits settings policy compat v}

/-! ### The four ways of selecting -/

theorem maximizes_lts? :
    Version.Maximizes (candidates settings policy compat versions .lts)
      (lts? settings versions) := by
  unfold lts?
  split
  · next major minor hline =>
    refine Version.maximizes_max? fun v => ?_
    simp only [List.mem_filter, decide_eq_true_eq, candidates, Set.mem_ofPred_eq, Request.Fits,
      hline, Option.some.injEq, Prod.mk.injEq]
    grind
  · next hline =>
    refine Set.eq_empty_iff_forall_notMem.mpr fun v hv => ?_
    simp [candidates, Request.Fits, hline] at hv

theorem maximizes_newest? :
    Version.Maximizes (candidates settings policy compat versions .pre)
      (newest? settings versions) := by
  refine Version.maximizes_max? fun v => ?_
  simp only [List.mem_filter, decide_eq_true_eq, candidates, Set.mem_ofPred_eq, Request.Fits]

theorem maximizes_greatest? {range : Text} :
    Version.Maximizes (candidates settings policy compat versions (.range range))
      (greatest? policy range versions) := by
  unfold greatest?
  split
  · next r hr =>
    refine Version.maximizes_max? fun v => ?_
    simp [candidates, Request.Fits, hr]
  · next hr =>
    refine Set.eq_empty_iff_forall_notMem.mpr fun v hv => ?_
    simp [candidates, Request.Fits, hr] at hv

/-- The least member of an arm, among the versions that it admits. -/
theorem minimizes_leastOfArm? {arm : Text} :
    Version.Minimizes {v | v ∈ versions ∧ ∃ r, Range.read policy arm = .ok r ∧ v ∈ r}
      (leastOfArm? policy versions arm) := by
  unfold leastOfArm?
  split
  · next r hr =>
    refine Version.minimizes_min? fun v => ?_
    simp [hr]
  · next hr =>
    refine Set.eq_empty_iff_forall_notMem.mpr fun v hv => ?_
    simp [hr] at hv

theorem minimizes_least? {c : CompatRange} :
    Version.Minimizes (candidates settings policy (some c) versions .min)
      (least? policy c versions) := by
  have hunion : candidates settings policy (some c) versions .min = {v | ∃ arm ∈ c.arms,
      v ∈ {v | v ∈ versions ∧ ∃ r, Range.read policy arm = .ok r ∧ v ∈ r}} := by
    ext v
    simp only [candidates, Request.Fits, CompatRange.Admits, Option.some.injEq, exists_eq_left',
      Set.mem_ofPred_eq]
    grind
  rw [hunion]
  exact Version.minimizes_min?_filterMap fun _ => minimizes_leastOfArm?

end Resolution

/-! ### The answer -/

open Resolution in
/-- **What a request has to be answered with**, given the published versions. -/
inductive Answers (settings : Settings) (versions : List Version) (request : Text)
    (policy : PrereleasePolicy) (compat : Option CompatRange) : Except ResolveError Text → Prop
  /-- A version that is named in full is the answer. -/
  | exact {version : Text} : Request.read request = .exact version →
      Answers settings versions request policy compat (.ok version)
  /-- A nightly build is the answer. -/
  | nightly {name : Text} : Request.read request = .nightly name →
      Answers settings versions request policy compat (.ok name)
  /-- The least allowed version needs a compat range with an arm. -/
  | missingCompat : Request.read request = .min → (∀ c, compat = some c → c.arms = []) →
      Answers settings versions request policy compat (.error (.missingCompat request))
  /-- The least version that the compat range admits. -/
  | least {v : Version} : Request.read request = .min →
      IsLeast (candidates settings policy compat versions .min) v →
      Answers settings versions request policy compat (.ok v.write)
  /-- The greatest version of the line, of the current major number or of the range. -/
  | greatest {v : Version} : Request.read request = .lts ∨ Request.read request = .pre ∨
        (∃ text, Request.read request = .range text) →
      IsGreatest (candidates settings policy compat versions (Request.read request)) v →
      Answers settings versions request policy compat (.ok v.write)
  /-- There is nothing to select from. -/
  | noMatch : (∀ version, Request.read request ≠ .exact version) →
      (∀ name, Request.read request ≠ .nightly name) →
      (Request.read request = .min → ∃ c, compat = some c ∧ c.arms ≠ []) →
      candidates settings policy compat versions (Request.read request) = ∅ →
      Answers settings versions request policy compat (.error (.noMatch request))

namespace Answers

variable {settings : Settings} {versions : List Version} {request : Text}
  {policy : PrereleasePolicy} {compat : Option CompatRange} {o : Option Version}

/-- A greatest candidate, or that there is none, makes the answer of a request that asks for it. -/
theorem of_maximizes (h : Request.read request = .lts ∨ Request.read request = .pre ∨
      (∃ text, Request.read request = .range text))
    (ho : Version.Maximizes
      (Resolution.candidates settings policy compat versions (Request.read request)) o) :
    Answers settings versions request policy compat (answer request o) := by
  cases o with
  | none => exact .noMatch (by grind) (by grind) (by grind) ho
  | some v => exact .greatest h ho

/-- A least candidate, or that there is none, makes the answer of a request that asks for it. -/
theorem of_minimizes {c : CompatRange} (h : Request.read request = .min) (hc : c.arms ≠ [])
    (ho : Version.Minimizes (Resolution.candidates settings policy (some c) versions .min) o) :
    Answers settings versions request policy (some c) (answer request o) := by
  cases o with
  | none => exact .noMatch (by simp [h]) (by simp [h]) (fun _ => ⟨c, rfl, hc⟩) (by rw [h]; exact ho)
  | some v => exact .least h ho

end Answers

section Resolve

open Resolution

variable {settings : Settings} {tags : List Text} {request : Text} {policy : PrereleasePolicy}
  {compat : Option CompatRange} {result : Except ResolveError Text}

theorem answers_resolve : Answers settings (Tag.versions tags) request policy compat
    (resolve settings tags request policy compat) := by
  unfold resolve
  cases hread : Request.read request with
  | exact version => exact .exact hread
  | nightly name => exact .nightly hread
  | min =>
    cases compat with
    | none => exact .missingCompat hread (by simp)
    | some c =>
      by_cases harms : c.arms = []
      · simp only [CompatRange.isEmpty, harms, List.isEmpty_nil, if_true]
        exact .missingCompat hread (by simpa using harms)
      · simp only [CompatRange.isEmpty, List.isEmpty_iff, harms, if_false]
        exact .of_minimizes hread harms minimizes_least?
  | lts => exact .of_maximizes (.inl hread) (hread ▸ maximizes_lts?)
  | pre => exact .of_maximizes (.inr (.inl hread)) (hread ▸ maximizes_newest?)
  | range text => exact .of_maximizes (.inr (.inr ⟨text, hread⟩)) (hread ▸ maximizes_greatest?)

theorem answers_of_resolve_eq (h : resolve settings tags request policy compat = result) :
    Answers settings (Tag.versions tags) request policy compat result :=
  h ▸ answers_resolve

/-- A selection is answered with its greatest candidate, or with there being none. -/
theorem resolve_eq_answer_of_maximizes {o : Option Version} (h : Request.read request = .lts ∨
      Request.read request = .pre ∨ (∃ text, Request.read request = .range text))
    (ho : Version.Maximizes
      (candidates settings policy compat (Tag.versions tags) (Request.read request)) o) :
    resolve settings tags request policy compat = answer request o := by
  rcases h with h | h | ⟨text, h⟩ <;> rw [h] at ho <;> simp only [resolve, h]
  · rw [maximizes_lts?.unique ho]
  · rw [maximizes_newest?.unique ho]
  · rw [maximizes_greatest?.unique ho]

/-- `min` is answered with its least candidate, or with there being none. -/
theorem resolve_eq_answer_of_minimizes {o : Option Version} {c : CompatRange}
    (h : Request.read request = .min) (hc : c.arms ≠ [])
    (ho : Version.Minimizes (candidates settings policy (some c) (Tag.versions tags) .min) o) :
    resolve settings tags request policy (some c) = answer request o := by
  simp only [resolve, h, CompatRange.isEmpty, List.isEmpty_iff, hc, if_false]
  rw [minimizes_least?.unique ho]

theorem Answers.resolve_eq (h : Answers settings (Tag.versions tags) request policy compat result) :
    resolve settings tags request policy compat = result := by
  cases h with
  | exact hread => simp only [resolve, hread]
  | nightly hread => simp only [resolve, hread]
  | missingCompat hread hc =>
    cases compat with
    | none => simp only [resolve, hread]
    | some c => simp [resolve, hread, CompatRange.isEmpty, hc c rfl]
  | @least v hread hv =>
    obtain ⟨c, rfl, arm, harm, -⟩ := hv.1.2
    exact resolve_eq_answer_of_minimizes hread (List.ne_nil_of_mem harm) (o := some v) hv
  | @greatest v hread hv => exact resolve_eq_answer_of_maximizes hread (o := some v) hv
  | noMatch hexact hnightly hmin hnone =>
    cases hread : Request.read request with
    | exact version => exact absurd hread (hexact version)
    | nightly name => exact absurd hread (hnightly name)
    | min =>
      obtain ⟨c, rfl, hc⟩ := hmin hread
      exact resolve_eq_answer_of_minimizes hread hc (o := none) (hread ▸ hnone)
    | lts => exact resolve_eq_answer_of_maximizes (.inl hread) (o := none) hnone
    | pre => exact resolve_eq_answer_of_maximizes (.inr (.inl hread)) (o := none) hnone
    | range text =>
      exact resolve_eq_answer_of_maximizes (.inr (.inr ⟨text, hread⟩)) (o := none) hnone

/-- Where there is a candidate, a request for the greatest one is answered with one that is at least
that. -/
theorem exists_resolve_ge {v : Version} (h : Request.read request = .lts ∨
      Request.read request = .pre ∨ (∃ text, Request.read request = .range text))
    (hv : v ∈ candidates settings policy compat (Tag.versions tags) (Request.read request)) :
    ∃ w ∈ candidates settings policy compat (Tag.versions tags) (Request.read request), v ≤ w ∧
      resolve settings tags request policy compat = .ok w.write := by
  generalize hresult : resolve settings tags request policy compat = result
  cases answers_of_resolve_eq hresult with
  | exact hread | nightly hread | missingCompat hread | least hread =>
    rw [hread] at h
    simp at h
  | @greatest w _ hw => exact ⟨w, hw.1, hw.2 hv, rfl⟩
  | noMatch _ _ _ hnone => exact absurd hv (Set.eq_empty_iff_forall_notMem.mp hnone v)

/-- Where there is a candidate, `min` is answered with one that is at most that. -/
theorem exists_resolve_le {v : Version} (h : Request.read request = .min)
    (hv : v ∈ candidates settings policy compat (Tag.versions tags) .min) :
    ∃ w ∈ candidates settings policy compat (Tag.versions tags) .min, w ≤ v ∧
      resolve settings tags request policy compat = .ok w.write := by
  generalize hresult : resolve settings tags request policy compat = result
  cases answers_of_resolve_eq hresult with
  | exact hread | nightly hread =>
    rw [h] at hread
    simp at hread
  | missingCompat _ hc =>
    obtain ⟨c, rfl, arm, harm, -⟩ := hv.2
    rw [hc c rfl] at harm
    exact absurd harm (by simp)
  | @least w _ hw => exact ⟨w, hw.1, hw.2 hv, rfl⟩
  | greatest hread =>
    rw [h] at hread
    simp at hread
  | noMatch _ _ _ hnone =>
    rw [h] at hnone
    exact absurd hv (Set.eq_empty_iff_forall_notMem.mp hnone v)

/-- A selection that succeeds is answered with the written form of a candidate. -/
theorem exists_candidate_of_resolve_eq_ok {text : Text}
    (hexact : ∀ version, Request.read request ≠ .exact version)
    (hnightly : ∀ name, Request.read request ≠ .nightly name)
    (h : resolve settings tags request policy compat = .ok text) :
    ∃ v ∈ candidates settings policy compat (Tag.versions tags) (Request.read request),
      text = v.write := by
  cases answers_of_resolve_eq h with
  | exact hread => exact absurd hread (hexact text)
  | nightly hread => exact absurd hread (hnightly text)
  | @least v hread hv => exact ⟨v, by rw [hread]; exact hv.1, rfl⟩
  | @greatest v hread hv => exact ⟨v, hv.1, rfl⟩

end Resolve

/-- **A request is answered as it has to be**, and with nothing else. -/
theorem resolve_eq_iff_answers (settings : Settings) (tags : List Text) (request : Text)
    (policy : PrereleasePolicy) (compat : Option CompatRange)
    (result : Except ResolveError Text) :
    resolve settings tags request policy compat = result ↔
      Answers settings (Tag.versions tags) request policy compat result :=
  ⟨fun h => h ▸ answers_resolve, Answers.resolve_eq⟩

end JuliaReleases
