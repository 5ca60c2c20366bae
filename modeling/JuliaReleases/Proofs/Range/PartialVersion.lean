import JuliaReleases.Proofs.Range.Operator

/-!
# What is known of a partial version that was read

A partial version consists of its numbers, `JuliaReleases.PartialVersion.components`, and a
prerelease. When `JuliaReleases.PartialVersion.read` succeeds,

* every component was read on its own (`JuliaReleases.PartialVersion.exists_components_of_read`),
  hence no number exceeds `JuliaReleases.maxNumber`
  (`JuliaReleases.PartialVersion.le_maxNumber_of_read`);
* the text does not start with an operator
  (`JuliaReleases.PartialVersion.exists_eq_cons_of_read`), so an operator in front of it can be
  taken off again (`JuliaReleases.PartialVersion.split_append_of_read`).
-/

namespace JuliaReleases

namespace PartialVersion

/-- The numbers of a partial version. -/
def components : PartialVersion → List Nat
  | wildcard => []
  | major a => [a]
  | minor a b => [a, b]
  | full a b c _ => [a, b, c]

/-- The prerelease of a partial version; only a full one can have one. -/
def pre : PartialVersion → List PreIdentifier
  | full _ _ _ pre => pre
  | wildcard | major _ | minor _ _ => []

/-! ### The steps of reading -/

theorem le_maxNumber_of_readComponent {component : Text} {n : Nat}
    (h : readComponent component = .ok (some n)) : n ≤ maxNumber := by
  unfold readComponent at h
  split at h
  · exact absurd h (by simp)
  · split at h
    · exact absurd h (by simp)
    · split at h
      · exact absurd h (by simp)
      · cases hread : Decimal.read? component with
        | none => simp [hread] at h
        | some m =>
          obtain rfl : m = n := by simpa [hread] using h
          exact Decimal.le_maxNumber_of_read? hread

/-- A number of a partial version is one of the components that it was made of. -/
theorem some_mem_of_mem_components_ofComponents {components : List (Option Nat)} {n : Nat}
    (h : n ∈ (ofComponents components).components) : some n ∈ components := by
  unfold ofComponents at h
  split at h <;> simp only [PartialVersion.components] at h <;> grind

/-- Giving a prerelease to a partial version leaves its numbers alone. -/
theorem components_of_withPrerelease {version : Text} {pre : Option Text} {p q : PartialVersion}
    (h : withPrerelease version pre p = .ok q) : q.components = p.components := by
  unfold withPrerelease at h
  split at h
  · obtain rfl : p = q := Except.ok.inj h
    rfl
  · exact absurd h (by simp)
  · split at h
    · obtain rfl := Except.ok.inj h
      rfl
    · exact absurd h (by simp)
  · exact absurd h (by simp)

/-- **The parts of a text that was read**: build metadata aside, at most three components and a
prerelease. -/
theorem exists_components_of_read {text : Text} {p : PartialVersion} (h : read text = .ok p) :
    ∃ version components, version = (Text.cut '+' (Tag.stripPrefix text)).1 ∧
      components.length ≤ 3 ∧
      ((Text.cut '-' version).1.splitOn '.').mapM readComponent = .ok components ∧
      withPrerelease version (Text.cut '-' version).2 (ofComponents components) = .ok p := by
  refine ⟨(Text.cut '+' (Tag.stripPrefix text)).1, ?_⟩
  unfold read at h
  dsimp only at h
  split at h
  · exact absurd h (by simp)
  · split at h
    · exact absurd h (by simp)
    · split at h
      · exact absurd h (by simp)
      · next hlength =>
        obtain ⟨components, hcomponents, hpre⟩ := bind_eq_ok_iff.mp h
        have hsame := congrArg List.length (mapM_eq_ok_iff.mp hcomponents)
        rw [List.length_map, List.length_map] at hsame
        exact ⟨components, rfl, hsame ▸ Nat.le_of_not_lt hlength, hcomponents, hpre⟩

/-! ### Consequences -/

theorem le_maxNumber_of_read {text : Text} {p : PartialVersion} (h : read text = .ok p) :
    ∀ n ∈ p.components, n ≤ maxNumber := by
  intro n hn
  obtain ⟨version, components, -, -, hcomponents, hpre⟩ := exists_components_of_read h
  rw [components_of_withPrerelease hpre] at hn
  have hmem := some_mem_of_mem_components_ofComponents hn
  obtain ⟨component, -, hcomponent⟩ :=
    exists_mem_of_mem_results (mapM_eq_ok_iff.mp hcomponents) hmem
  exact le_maxNumber_of_readComponent hcomponent

/-- No operator is read as a component, whatever follows it. -/
theorem readComponent_operator {c : Char} (hc : c ∈ Operator.starts) (rest : Text)
    (component : Option Nat) : readComponent (c :: rest) ≠ .ok component := by
  have hnumeral : Decimal.isNumeral (c :: rest) = false := by
    simp [Decimal.isNumeral, Operator.isDigit_eq_false_of_mem_starts hc]
  have hwildcard : ∀ d ∉ Operator.starts, c :: rest ≠ [d] := fun d hd heq =>
    hd ((List.cons.inj heq).1 ▸ hc)
  rw [readComponent, if_neg, if_pos hnumeral]
  · simp
  · rintro (hx | hx | hx) <;> exact hwildcard _ (by decide) hx

/-- No operator stands at the front of a partial version. -/
theorem exists_eq_cons_of_read {text : Text} {p : PartialVersion} (h : read text = .ok p) :
    ∃ c rest, text = c :: rest ∧ c ∉ Operator.starts := by
  obtain ⟨version, components, hversion, -, hcomponents, -⟩ := exists_components_of_read h
  cases text with
  | nil => exact absurd h (by simp [read, Tag.stripPrefix])
  | cons c rest =>
    refine ⟨c, rest, rfl, fun hc => ?_⟩
    have hmark : ∀ d ∉ Operator.starts, c ≠ d := fun d hd heq => hd (heq ▸ hc)
    -- No cut is made in front of the operator, so it starts the first component.
    rw [Tag.stripPrefix_cons (hmark 'v' (by decide)), Text.cut_cons_fst (hmark '+' (by decide))]
      at hversion
    rw [hversion, Text.cut_cons_fst (hmark '-' (by decide)), List.splitOn_cons_eq_if_modifyHead,
      if_neg (by simpa using hmark '.' (by decide))] at hcomponents
    obtain ⟨first, others, hpieces⟩ :=
      List.exists_cons_of_ne_nil (List.splitOn_ne_nil '.' (Text.cut '-' (Text.cut '+' rest).1).1)
    rw [hpieces, List.modifyHead_cons, mapM_eq_ok_iff] at hcomponents
    obtain ⟨component, -, hfirst⟩ := exists_mem_of_mem_read hcomponents List.mem_cons_self
    exact readComponent_operator hc first component hfirst

section Operator

variable {text : Text} {p : PartialVersion} (h : read text = .ok p)
include h

theorem split_of_read : Operator.split text = (none, text) := by
  obtain ⟨c, rest, rfl, hc⟩ := exists_eq_cons_of_read h
  exact Operator.split_of_not_mem hc rest

theorem ne_eq_cons_of_read (rest : Text) : text ≠ '=' :: rest := by
  obtain ⟨c, rest', rfl, hc⟩ := exists_eq_cons_of_read h
  intro heq
  rw [(List.cons.inj heq).1] at hc
  exact hc (by decide)

/-- An operator in front of a partial version is taken off, whichever it is. -/
theorem split_append_of_read (op : Operator) :
    Operator.split (op.write ++ text) = (some op, text) :=
  Operator.split_append (ne_eq_cons_of_read h)

theorem read?_of_read : Operator.read? text = none := by
  obtain ⟨c, rest, rfl, hc⟩ := exists_eq_cons_of_read h
  exact Operator.read?_cons_of_notMem hc rest

theorem read?_append_of_read (op : Operator) : Operator.read? (op.write ++ text) = none := by
  obtain ⟨c, rest, htext, -⟩ := exists_eq_cons_of_read h
  exact Operator.read?_append (ne_eq_cons_of_read h) (htext ▸ List.cons_ne_nil c rest)

end Operator

end PartialVersion

end JuliaReleases
