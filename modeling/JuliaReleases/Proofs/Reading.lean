import Mathlib.Data.List.Forall2

/-!
# Readers that may fail

Every reader of the library is a chain of steps in `Except`. This file takes such a chain apart:

* `JuliaReleases.bind_eq_ok_iff`, `JuliaReleases.map_eq_ok_iff` and
  `JuliaReleases.mapError_eq_ok_iff` – one step that succeeds, and
  `JuliaReleases.guard_eq_ok_iff` – one that only refuses;
* `JuliaReleases.mapM_eq_ok_iff` – a list that is read element by element. The statement is an
  equation between two lists of results, so that a fact about one element is found by membership
  and a fact about all of them by rewriting (`JuliaReleases.mapM_eq_ok_iff_forall₂` is the same
  element by element);
* `JuliaReleases.mapM_eq_error_iff` – where such a list fails, namely at its first element at
  fault;
* `JuliaReleases.mapM_flatMap_eq` – lists that are read one behind the other;
* `JuliaReleases.flatten_mapM_append` – elements that give any number of results, as laws of the
  list of all results.
-/

namespace JuliaReleases

universe u

variable {ε : Type} {α β γ : Type u}

theorem bind_eq_ok_iff {x : Except ε α} {f : α → Except ε β} {b : β} :
    x >>= f = .ok b ↔ ∃ a, x = .ok a ∧ f a = .ok b := by
  cases x with
  | error e => simp [bind, Except.bind]
  | ok a => simp [bind, Except.bind]

theorem map_eq_ok_iff {f : α → β} {x : Except ε α} {b : β} :
    f <$> x = .ok b ↔ ∃ a, x = .ok a ∧ f a = b := by
  cases x with
  | error e => simp [Functor.map, Except.map]
  | ok a => simp [Functor.map, Except.map]

theorem mapError_eq_ok_iff {δ : Type} {f : ε → δ} {x : Except ε α} {a : α} :
    x.mapError f = .ok a ↔ x = .ok a := by
  cases x with
  | error e => simp [Except.mapError]
  | ok a => simp [Except.mapError]

/-- A step that refuses something succeeds if that is not the case and the rest succeeds. -/
theorem guard_eq_ok_iff {p : Prop} [Decidable p] {e : ε} {f : α → Except ε β} {x : Except ε β}
    {b : β} : (if p then throw e >>= f else x) = .ok b ↔ ¬ p ∧ x = .ok b := by
  have hthrow : (throw e >>= f) = .error e := rfl
  by_cases hp : p <;> simp [hp, hthrow]

/-- Two steps fail where the first one does, or behind it. -/
theorem bind_eq_error_iff {x : Except ε α} {f : α → Except ε β} {e : ε} :
    x >>= f = .error e ↔ x = .error e ∨ ∃ a, x = .ok a ∧ f a = .error e := by
  cases x with
  | error e' => simp [bind, Except.bind]
  | ok a => simp [bind, Except.bind]

theorem map_eq_error_iff {f : α → β} {x : Except ε α} {e : ε} :
    f <$> x = .error e ↔ x = .error e := by
  cases x with
  | error e' => simp [Functor.map, Except.map]
  | ok a => simp [Functor.map, Except.map]

theorem mapError_eq_error_iff {δ : Type} {f : ε → δ} {x : Except ε α} {e : δ} :
    x.mapError f = .error e ↔ ∃ e', x = .error e' ∧ f e' = e := by
  cases x with
  | error e' => simp [Except.mapError]
  | ok a => simp [Except.mapError]

/-- Readers with the same results are the same reader, as far as nobody asks for the fault. -/
theorem toOption_eq_toOption {δ : Type} {x : Except ε α} {y : Except δ α}
    (h : ∀ a, x = .ok a ↔ y = .ok a) : x.toOption = y.toOption := by
  cases x with
  | ok a => rw [(h a).mp rfl]; rfl
  | error e =>
    cases y with
    | ok b => exact absurd ((h b).mpr rfl) (by simp)
    | error e' => rfl

/-- A list is read if and only if each of its elements is. -/
theorem mapM_eq_ok_iff {f : α → Except ε β} {as : List α} {bs : List β} :
    as.mapM f = .ok bs ↔ as.map f = bs.map .ok := by
  induction as generalizing bs with
  | nil =>
    rw [List.mapM_nil]
    cases bs <;> simp [pure, Except.pure]
  | cons a as ih =>
    rw [List.mapM_cons, bind_eq_ok_iff]
    constructor
    · rintro ⟨b, hb, h⟩
      obtain ⟨rest, hrest, hbs⟩ := bind_eq_ok_iff.mp h
      obtain rfl : b :: rest = bs := Except.ok.inj hbs
      rw [List.map_cons, List.map_cons, hb, ih.mp hrest]
    · intro h
      cases bs with
      | nil => exact absurd h (by simp)
      | cons b rest =>
        rw [List.map_cons, List.map_cons, List.cons.injEq] at h
        exact ⟨b, h.1, bind_eq_ok_iff.mpr ⟨rest, ih.mpr h.2, rfl⟩⟩

/-- The same, element by element. -/
theorem mapM_eq_ok_iff_forall₂ {f : α → Except ε β} {as : List α} {bs : List β} :
    as.mapM f = .ok bs ↔ List.Forall₂ (fun a b => f a = .ok b) as bs := by
  rw [mapM_eq_ok_iff, ← List.forall₂_eq_eq_eq, List.forall₂_map_left_iff,
    List.forall₂_map_right_iff]

/-- Readers that differ in their faults only read the same lists. -/
theorem map_eq_map_ok_iff {δ : Type} {f : α → Except ε β} {g : α → Except δ β}
    (h : ∀ a b, f a = .ok b ↔ g a = .ok b) {as : List α} {bs : List β} :
    as.map f = bs.map .ok ↔ as.map g = bs.map .ok := by
  induction as generalizing bs with
  | nil => cases bs <;> simp
  | cons a as ih =>
    cases bs with
    | nil => simp
    | cons b bs => simp [h, ih]

/-- A list fails at its first element, or the first one is read and the others fail. -/
theorem mapM_cons_eq_error_iff {f : α → Except ε β} {a : α} {as : List α} {e : ε} :
    (a :: as).mapM f = .error e ↔
      f a = .error e ∨ (∃ result, f a = .ok result) ∧ as.mapM f = .error e := by
  rw [List.mapM_cons]
  cases f a with
  | error e' => simp [bind, Except.bind]
  | ok b => cases as.mapM f <;> simp [bind, Except.bind, pure, Except.pure]

/-- The first fault of a list is at its front, or it is the first fault behind that. -/
theorem exists_first_fault_cons_iff {f : α → Except ε β} {a : α} {as : List α} {e : ε} :
    (∃ before b after, a :: as = before ++ b :: after ∧
        (∀ c ∈ before, ∃ result, f c = .ok result) ∧ f b = .error e) ↔
      f a = .error e ∨ (∃ result, f a = .ok result) ∧ ∃ before b after,
        as = before ++ b :: after ∧ (∀ c ∈ before, ∃ result, f c = .ok result) ∧
          f b = .error e := by
  constructor
  · rintro ⟨before, b, after, happend, hbefore, hb⟩
    cases before with
    | nil =>
      obtain ⟨rfl, rfl⟩ := List.cons.inj happend
      exact .inl hb
    | cons c before =>
      obtain ⟨rfl, rfl⟩ := List.cons.inj happend
      obtain ⟨ha, hrest⟩ := List.forall_mem_cons.mp hbefore
      exact .inr ⟨ha, before, b, after, rfl, hrest, hb⟩
  · rintro (ha | ⟨ha, before, b, after, rfl, hbefore, hb⟩)
    · exact ⟨[], a, as, rfl, by simp, ha⟩
    · exact ⟨a :: before, b, after, rfl, List.forall_mem_cons.mpr ⟨ha, hbefore⟩, hb⟩

/-- **The first fault is the one reported**: everything in front of it was read. -/
theorem mapM_eq_error_iff {f : α → Except ε β} {as : List α} {e : ε} :
    as.mapM f = .error e ↔ ∃ before a after, as = before ++ a :: after ∧
      (∀ b ∈ before, ∃ result, f b = .ok result) ∧ f a = .error e := by
  induction as with
  | nil => simp [pure, Except.pure]
  | cons a as ih => rw [mapM_cons_eq_error_iff, ih, exists_first_fault_cons_iff]

/-- What is done to every result can be done to the list of the results. -/
theorem mapM_map_eq {f : α → Except ε β} {g : β → γ} {as : List α} :
    as.mapM (fun a => g <$> f a) = List.map g <$> as.mapM f := by
  induction as with
  | nil => rfl
  | cons a as ih =>
    rw [List.mapM_cons, List.mapM_cons, ih]
    cases f a with
    | error e => rfl
    | ok b => cases as.mapM f <;> rfl

/-- What is done to every fault can be done to the one that is reported. -/
theorem mapM_mapError_eq {δ : Type} {f : α → Except ε β} {g : ε → δ} {as : List α} :
    as.mapM (fun a => (f a).mapError g) = (as.mapM f).mapError g := by
  induction as with
  | nil => rfl
  | cons a as ih =>
    rw [List.mapM_cons, List.mapM_cons, ih]
    cases f a with
    | error e => rfl
    | ok b => cases as.mapM f <;> rfl

/-- Lists that are read one behind the other can be read one by one. -/
theorem mapM_flatMap_eq {f : α → Except ε β} {g : γ → List α} {cs : List γ} :
    (cs.flatMap g).mapM f = List.flatten <$> cs.mapM fun c => (g c).mapM f := by
  induction cs with
  | nil => rfl
  | cons c cs ih =>
    rw [List.flatMap_cons, List.mapM_append, List.mapM_cons, ih]
    cases (g c).mapM f with
    | error e => rfl
    | ok bs => cases cs.mapM fun c => (g c).mapM f <;> rfl

/-- A list of which every element can be read has results. -/
theorem exists_results {f : α → Except ε β} {as : List α} (h : ∀ a ∈ as, ∃ b, f a = .ok b) :
    ∃ bs : List β, as.map f = bs.map .ok := by
  induction as with
  | nil => exact ⟨[], rfl⟩
  | cons a as ih =>
    obtain ⟨⟨b, hb⟩, hrest⟩ := List.forall_mem_cons.mp h
    obtain ⟨bs, hbs⟩ := ih hrest
    exact ⟨b :: bs, by rw [List.map_cons, List.map_cons, hb, hbs]⟩

section Results

variable {f : α → Except ε β} {as : List α} {bs : List β} (h : as.map f = bs.map .ok)
include h

theorem exists_mem_of_mem_read {a : α} (ha : a ∈ as) : ∃ b ∈ bs, f a = .ok b := by
  have hmem := List.mem_map_of_mem (f := f) ha
  rw [h] at hmem
  obtain ⟨b, hb, hfa⟩ := List.mem_map.mp hmem
  exact ⟨b, hb, hfa.symm⟩

theorem exists_mem_of_mem_results {b : β} (hb : b ∈ bs) : ∃ a ∈ as, f a = .ok b := by
  have hmem := List.mem_map_of_mem (f := (Except.ok : β → Except ε β)) hb
  rw [← h] at hmem
  exact List.mem_map.mp hmem

/-- What agrees on an element and its result agrees on the two lists. -/
theorem map_eq_map_of_read {g : α → γ} {k : β → γ} (hg : ∀ a b, f a = .ok b → g a = k b) :
    as.map g = bs.map k := by
  induction as generalizing bs with
  | nil =>
    obtain rfl : bs = [] := by simpa using h.symm
    rfl
  | cons a as ih =>
    cases bs with
    | nil => exact absurd h (by simp)
    | cons b bs =>
      rw [List.map_cons, List.map_cons, List.cons.injEq] at h
      rw [List.map_cons, List.map_cons, hg a b h.1, ih h.2]

end Results

/-! ### Lists of results that are put together -/

section Flatten

variable {f : α → Except ε (List β)} {a : α} {as : List α}

theorem flatten_mapM_append (before after : List α) :
    List.flatten <$> (before ++ after).mapM f = List.flatten <$> before.mapM f >>= fun bs =>
      (bs ++ ·) <$> List.flatten <$> after.mapM f := by
  rw [List.mapM_append]
  cases before.mapM f with
  | error e => rfl
  | ok bss =>
    cases after.mapM f with
    | error e => rfl
    | ok css => exact congrArg Except.ok List.flatten_append

theorem flatten_mapM_singleton (a : α) : List.flatten <$> [a].mapM f = f a := by
  rw [List.mapM_cons, List.mapM_nil]
  cases f a with
  | error e => rfl
  | ok bs => exact congrArg Except.ok (List.append_nil bs)

theorem flatten_mapM_cons (a : α) (as : List α) : List.flatten <$> (a :: as).mapM f =
    f a >>= fun bs => (bs ++ ·) <$> List.flatten <$> as.mapM f := by
  rw [← List.singleton_append, flatten_mapM_append, flatten_mapM_singleton]

/-- What is read piece by piece can be read in one go. -/
theorem flatten_mapM_flatMap {g : γ → List α} {k : γ → Except ε (List β)} {cs : List γ}
    (h : ∀ c ∈ cs, k c = List.flatten <$> (g c).mapM f) :
    List.flatten <$> cs.mapM k = List.flatten <$> (cs.flatMap g).mapM f := by
  induction cs with
  | nil => rfl
  | cons c cs ih =>
    obtain ⟨hc, hcs⟩ := List.forall_mem_cons.mp h
    rw [flatten_mapM_cons, List.flatMap_cons, flatten_mapM_append, hc, ih hcs]

/-- What is read everywhere is read together. -/
theorem flatten_mapM_eq_ok {g : α → List β} (h : ∀ a ∈ as, f a = .ok (g a)) :
    List.flatten <$> as.mapM f = .ok (as.flatMap g) := by
  induction as with
  | nil => rfl
  | cons a as ih =>
    obtain ⟨ha, has⟩ := List.forall_mem_cons.mp h
    rw [flatten_mapM_cons, ha, ih has]
    rfl

theorem flatten_mapM_of_nil (h : ∀ a ∈ as, f a = .ok []) :
    List.flatten <$> as.mapM f = .ok [] := by
  rw [flatten_mapM_eq_ok h, List.flatMap_eq_nil_iff.mpr fun _ _ => rfl]

/-- **What is read as nothing can be left out.** -/
theorem flatten_mapM_append_of_nil (h : ∀ a ∈ as, f a = .ok []) (before after : List α) :
    List.flatten <$> (before ++ as ++ after).mapM f =
      List.flatten <$> (before ++ after).mapM f := by
  have hbefore : List.flatten <$> (before ++ as).mapM f = List.flatten <$> before.mapM f := by
    rw [flatten_mapM_append, flatten_mapM_of_nil h]
    cases before.mapM f with
    | error e => rfl
    | ok bss => exact congrArg Except.ok (List.append_nil _)
  rw [flatten_mapM_append, hbefore, flatten_mapM_append]

/-- The first result of a kind comes from the first element that has one. -/
theorem exists_first_of_flatten_mapM {p : β → Prop} [DecidablePred p] {bs : List β} {b : β}
    (h : List.flatten <$> as.mapM f = .ok bs) (hb : bs.find? (p ·) = some b) :
    ∃ before a after results, as = before ++ a :: after ∧ f a = .ok results ∧ b ∈ results ∧
      ∀ a' ∈ before, ∃ results, f a' = .ok results ∧ ∀ b ∈ results, ¬ p b := by
  induction as generalizing bs with
  | nil =>
    obtain rfl := Except.ok.inj h
    exact absurd hb (by simp)
  | cons a as ih =>
    rw [flatten_mapM_cons] at h
    obtain ⟨results, ha, h⟩ := bind_eq_ok_iff.mp h
    obtain ⟨rest, hrest, rfl⟩ := map_eq_ok_iff.mp h
    rw [List.find?_append] at hb
    rcases Option.or_eq_some_iff.mp hb with hb | ⟨hnone, hb⟩
    · exact ⟨[], a, as, results, rfl, ha, List.mem_of_find?_eq_some hb, by simp⟩
    · obtain ⟨before, a', after, results', rfl, ha', hmem, hbefore⟩ := ih hrest hb
      have hresults : ∀ b ∈ results, ¬ p b := by simpa using hnone
      exact ⟨a :: before, a', after, results', rfl, ha', hmem,
        List.forall_mem_cons.mpr ⟨⟨results, ha, hresults⟩, hbefore⟩⟩

end Flatten

end JuliaReleases
