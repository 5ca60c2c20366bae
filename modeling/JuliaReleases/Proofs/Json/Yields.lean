import JuliaReleases.Json.Typed
import JuliaReleases.Proofs.Reading

/-!
# What readers yield

A reader that succeeds gives a value of which something is known, whatever the text was
(`JuliaReleases.Json.Yields`). Such facts pass through the readers of arrays, objects and records:
what holds of every element holds of all of them, and what is kept by every field is kept by a
record, whether it is written as an object or as an array.
-/

namespace JuliaReleases.Json

variable {α σ : Type} {read : Reader α} {P : α → Prop} {I : σ → Prop}

/-- **A reader yields** values with a property only. -/
def Yields (read : Reader α) (P : α → Prop) : Prop :=
  ∀ ⦃text : Text⦄ ⦃a : α⦄ ⦃rest : Text⦄, read text = .ok (a, rest) → P a

theorem Yields.true (read : Reader α) : Yields read fun _ => True :=
  fun _ _ _ _ => trivial

/-! ### Numbers -/

theorem readNumber_le {text rest : Text} {n : Nat} (h : readNumber text = .ok (some n, rest)) :
    n ≤ maxNumber := by
  unfold readNumber at h
  split at h
  obtain ⟨⟨whole, rest₁⟩, -, h⟩ := bind_eq_ok_iff.mp h
  obtain ⟨⟨fraction, rest₂⟩, -, h⟩ := bind_eq_ok_iff.mp h
  obtain ⟨⟨exponent, rest₃⟩, -, h⟩ := bind_eq_ok_iff.mp h
  dsimp only at h
  split_ifs at h with hplain
  · obtain ⟨heq, -⟩ := Prod.mk.inj (Except.ok.inj h)
    obtain rfl := Option.some.inj heq
    simp only [Bool.and_eq_true, decide_eq_true_eq] at hplain
    exact hplain.2
  · cases h

theorem yields_nat : Yields readNat (· ≤ maxNumber) := by
  intro text n rest h
  unfold readNat at h
  split at h
  · split_ifs at h
    split at h
    · next hread =>
      obtain ⟨rfl, -⟩ := Prod.mk.inj (Except.ok.inj h)
      exact readNumber_le hread
    · cases h
    · cases h
  · cases h

/-! ### Values that may be absent, arrays and objects -/

theorem Yields.optional (h : Yields read P) : Yields (readOptional read) fun a => ∀ b ∈ a, P b := by
  intro text a rest hread
  unfold readOptional at hread
  split at hread
  · obtain ⟨rest', -, heq⟩ := map_eq_ok_iff.mp hread
    obtain ⟨rfl, -⟩ := Prod.mk.inj heq
    simp
  · obtain ⟨⟨b, rest'⟩, hb, heq⟩ := bind_eq_ok_iff.mp hread
    obtain ⟨rfl, -⟩ := Prod.mk.inj (Except.ok.inj heq)
    simpa using h hb

theorem readElements_yields (h : Yields read P) {bound : Nat} {ahead : Ahead} {as : List α}
    {rest : Text} (hread : readElements read bound ahead = .ok (as, rest)) : ∀ a ∈ as, P a := by
  fun_induction readElements read bound ahead generalizing as rest with
  | case1 bound rest' =>
    obtain ⟨rfl, -⟩ := Prod.mk.inj (Except.ok.inj hread)
    simp
  | case2 => cases hread
  | case3 bound text ih =>
    obtain ⟨⟨a, rest₁⟩, ha, hread⟩ := bind_eq_ok_iff.mp hread
    obtain ⟨next, -, hread⟩ := bind_eq_ok_iff.mp hread
    obtain ⟨⟨as', rest₂⟩, has, heq⟩ := bind_eq_ok_iff.mp hread
    obtain ⟨rfl, -⟩ := Prod.mk.inj (Except.ok.inj heq)
    exact List.forall_mem_cons.mpr ⟨h ha, ih next has⟩

theorem Yields.array (h : Yields read P) : Yields (readArray read) fun as => ∀ a ∈ as, P a := by
  intro text as rest hread
  unfold readArray at hread
  split at hread
  · obtain ⟨ahead, -, hread⟩ := bind_eq_ok_iff.mp hread
    exact readElements_yields h hread
  · cases hread

/-- What every member keeps is kept by an object. -/
theorem readMembers_yields {member : Text → σ → Reader σ}
    (h : ∀ key state, I state → Yields (member key state) I) {bound : Nat} {ahead : Ahead}
    {state state' : σ} {rest : Text} (hstate : I state)
    (hread : readMembers member bound state ahead = .ok (state', rest)) : I state' := by
  fun_induction readMembers member bound state ahead generalizing rest with
  | case1 bound state rest' =>
    obtain ⟨rfl, -⟩ := Prod.mk.inj (Except.ok.inj hread)
    exact hstate
  | case2 => cases hread
  | case3 bound state text ih =>
    obtain ⟨⟨key, rest₁⟩, -, hread⟩ := bind_eq_ok_iff.mp hread
    obtain ⟨⟨state₁, rest₂⟩, hmember, hread⟩ := bind_eq_ok_iff.mp hread
    obtain ⟨next, -, hread⟩ := bind_eq_ok_iff.mp hread
    exact ih state₁ next (h key state hstate hmember) hread

theorem Yields.entries (h : Yields read P) :
    Yields (readEntries read) fun entries => ∀ entry ∈ entries, P entry.2 := by
  intro text entries rest hread
  unfold readEntries at hread
  split at hread
  · obtain ⟨ahead, -, hread⟩ := bind_eq_ok_iff.mp hread
    refine readMembers_yields (I := fun entries : List (Text × α) => ∀ entry ∈ entries, P entry.2)
      ?_ (by simp) hread
    intro key before hbefore text entries rest hread
    obtain ⟨behind, -, hread⟩ := bind_eq_ok_iff.mp hread
    obtain ⟨⟨a, rest₁⟩, ha, heq⟩ := bind_eq_ok_iff.mp hread
    obtain ⟨rfl, -⟩ := Prod.mk.inj (Except.ok.inj heq)
    rw [List.forall_mem_append]
    exact ⟨hbefore, by simpa using h ha⟩
  · cases hread

/-! ### Records -/

section Records

variable {fields : List (Field σ)} (hfields : ∀ field ∈ fields, ∀ draft, I draft →
  Yields (field.read draft) I)

theorem Yields.field {name : String} {get : σ → Option α} {set : σ → α → σ} (h : Yields read P)
    (hset : ∀ draft a, I draft → P a → I (set draft a)) (draft : σ) (hdraft : I draft) :
    Yields ((Field.of name read get set).read draft) I := by
  intro text draft' rest hread
  obtain ⟨⟨a, rest₁⟩, ha, heq⟩ := bind_eq_ok_iff.mp hread
  obtain ⟨rfl, -⟩ := Prod.mk.inj (Except.ok.inj heq)
  exact hset draft a hdraft (h ha)

include hfields in
theorem readField_yields (key : Text) (draft : σ) (hdraft : I draft) :
    Yields (readField fields key draft) I := by
  intro text draft' rest hread
  unfold readField at hread
  split at hread
  · next field hfind =>
    split_ifs at hread
    obtain ⟨behind, -, hread⟩ := bind_eq_ok_iff.mp hread
    exact hfields field (List.mem_of_find?_eq_some hfind) draft hdraft hread
  · obtain ⟨behind, -, hread⟩ := bind_eq_ok_iff.mp hread
    obtain ⟨rest₁, -, heq⟩ := bind_eq_ok_iff.mp hread
    obtain ⟨rfl, -⟩ := Prod.mk.inj (Except.ok.inj heq)
    exact hdraft

include hfields in
theorem readFields_yields {ahead : Text → Except Fault Ahead} {draft : σ} (hdraft : I draft) :
    Yields (readFields ahead fields draft) I := by
  induction fields generalizing ahead draft with
  | nil =>
    intro text draft' rest hread
    unfold readFields at hread
    split at hread
    · cases hread
    · obtain ⟨rfl, -⟩ := Prod.mk.inj (Except.ok.inj hread)
      exact hdraft
    · cases hread
  | cons field fields ih =>
    obtain ⟨hfield, hothers⟩ := List.forall_mem_cons.mp hfields
    intro text draft' rest hread
    obtain ⟨next, -, hread⟩ := bind_eq_ok_iff.mp hread
    cases next with
    | close rest₁ =>
      obtain ⟨rfl, -⟩ := Prod.mk.inj (Except.ok.inj hread)
      exact hdraft
    | item text₁ =>
      obtain ⟨⟨draft₁, rest₁⟩, hdraft₁, hread⟩ := bind_eq_ok_iff.mp hread
      exact ih hothers (hfield draft hdraft hdraft₁) hread

/-- A record is made of the draft that is left at its end. -/
theorem property_of_finish {x : Except Fault (σ × Text)} {finish? : σ → Option α} {a : α}
    {rest : Text} (hx : ∀ draft rest, x = .ok (draft, rest) → I draft)
    (hfinish : ∀ draft a, I draft → finish? draft = some a → P a)
    (hread : (x >>= fun (draft, rest) => match finish? draft with
      | some a => pure (a, rest)
      | none => throw .mismatched) = .ok (a, rest)) : P a := by
  obtain ⟨⟨draft, rest'⟩, hdraft, hread⟩ := bind_eq_ok_iff.mp hread
  dsimp only at hread
  split at hread
  · next a' hfinished =>
    obtain ⟨rfl, -⟩ := Prod.mk.inj (Except.ok.inj hread)
    exact hfinish draft _ (hx draft rest' hdraft) hfinished
  · cases hread

include hfields in
/-- **What every field keeps, a record has.** -/
theorem yields_record {draft : σ} {finish? : σ → Option α} (hdraft : I draft)
    (hfinish : ∀ draft a, I draft → finish? draft = some a → P a) :
    Yields (readRecord fields draft finish?) P := by
  intro text a rest hread
  unfold readRecord at hread
  split at hread
  · obtain ⟨ahead, -, hread⟩ := bind_eq_ok_iff.mp hread
    exact property_of_finish
      (fun _ _ => readMembers_yields (readField_yields hfields) hdraft) hfinish hread
  · exact property_of_finish (fun _ _ h => readFields_yields hfields hdraft h) hfinish hread
  · cases hread

end Records

end JuliaReleases.Json
