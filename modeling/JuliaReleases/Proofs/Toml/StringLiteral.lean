import JuliaReleases.Proofs.Text.Cutting
import JuliaReleases.Toml.StringLiteral

/-!
# String literals on one line

Between its marks a literal on one line has no line end, and no mark that keeps its meaning
(`JuliaReleases.Toml.StringLiteral.IsLine`). The reader takes such literals, and every one of them
(`JuliaReleases.Toml.StringLiteral.onLine_of_take`,
`JuliaReleases.Toml.StringLiteral.take_append`). The text that it stands for is the body itself if
nothing in it is an escape, and a shorter text otherwise
(`JuliaReleases.Toml.StringLiteral.OnLine.value?_eq_body_iff`).
-/

namespace JuliaReleases.Toml

theorem Quote.isBlank_mark (q : Quote) : isBlank q.mark = false := by
  cases q <;> decide

theorem Quote.mark_ne_lineEnd (q : Quote) : q.mark ≠ '\n' := by
  cases q <;> decide

namespace StringLiteral

/-! ### Bodies on one line -/

/-- **What stands between marks on one line**, from a place on: no line ends, and a mark only behind
a backslash that makes it lose its meaning. If `escaped`, the place is behind such a backslash. -/
def IsLine (q : Quote) (escaped : Bool) : Text → Prop
  | [] => escaped = false
  | c :: rest => c ≠ '\n' ∧ ¬ (escaped = false ∧ c = q.mark) ∧
      IsLine q (!escaped && Quote.isEscape q c) rest

instance IsLine.decidable (q : Quote) : ∀ escaped text, Decidable (IsLine q escaped text)
  | escaped, [] => inferInstanceAs (Decidable (escaped = false))
  | escaped, c :: rest =>
    have := IsLine.decidable q (!escaped && Quote.isEscape q c) rest
    inferInstanceAs (Decidable (c ≠ '\n' ∧ ¬ (escaped = false ∧ c = q.mark) ∧
      IsLine q (!escaped && Quote.isEscape q c) rest))

/-- A literal on one line. -/
def OnLine (l : StringLiteral) : Prop :=
  l.multiline = false ∧ IsLine l.quote false l.body

instance (l : StringLiteral) : Decidable l.OnLine :=
  inferInstanceAs (Decidable (_ ∧ _))

variable {q : Quote} {escaped : Bool} {text body rest : Text} {l : StringLiteral}

/-- A body is read up to its mark. -/
theorem takeLine_append (h : IsLine q escaped body) :
    takeLine q escaped (body ++ q.mark :: rest) = some (body, rest) := by
  induction body generalizing escaped with
  | nil =>
    obtain rfl : escaped = false := h
    rw [List.nil_append, takeLine, if_neg q.mark_ne_lineEnd, if_pos ⟨rfl, rfl⟩]
  | cons c body ih =>
    obtain ⟨hend, hmark, hbody⟩ := h
    rw [List.cons_append, takeLine, if_neg hend, if_neg hmark, ih hbody]
    rfl

theorem isLine_of_takeLine (h : takeLine q escaped text = some (body, rest)) :
    IsLine q escaped body ∧ text = body ++ q.mark :: rest := by
  induction text generalizing escaped body with
  | nil => exact absurd h (by simp [takeLine])
  | cons c text ih =>
    rw [takeLine] at h
    split_ifs at h with hend hmark
    · obtain ⟨rfl, rfl⟩ := Prod.mk.inj (Option.some.inj h)
      exact ⟨hmark.1, by rw [hmark.2, List.nil_append]⟩
    · obtain ⟨⟨body', rest'⟩, htake, hresult⟩ := Option.bind_eq_some_iff.mp h
      obtain ⟨rfl, rfl⟩ := Prod.mk.inj (Option.some.inj hresult)
      obtain ⟨hbody, rfl⟩ := ih htake
      exact ⟨⟨hend, hmark, hbody⟩, rfl⟩

/-- A mark stands behind a backslash, if anywhere. -/
theorem not_isLine_append_mark (h : '\\' ∉ text) : ¬ IsLine q false (text ++ q.mark :: rest) := by
  induction text with
  | nil => exact fun hline => hline.2.1 ⟨rfl, rfl⟩
  | cons c text ih =>
    obtain ⟨hc, htext⟩ := not_or.mp (List.mem_cons.not.mp h)
    rintro ⟨-, -, hline⟩
    rw [show (!false && Quote.isEscape q c) = false by simp [Quote.isEscape, Ne.symm hc]] at hline
    exact ih htext hline

/-! ### Values -/

/-- A body without backslashes stands for itself. -/
theorem unescape?_of_notMem (h : '\\' ∉ body) : unescape? body = some body := by
  unfold unescape?
  induction body with
  | nil => rfl
  | cons c body ih =>
    obtain ⟨hc, hbody⟩ := not_or.mp (List.mem_cons.not.mp h)
    rw [unescape?.go, if_neg (Ne.symm hc), ih hbody]
    rfl

/-- An escape stands for no more than one character, and is longer than that. -/
theorem length_of_escape? {n : Nat} (h : escape? rest = some (text, n)) :
    text.length + (rest.length - n) ≤ rest.length := by
  unfold escape? at h
  split at h
  case h_8 | h_9 =>
    obtain ⟨c, -, hc⟩ := Option.map_eq_some_iff.mp h
    obtain ⟨rfl, rfl⟩ := Prod.mk.inj hc
    simp only [List.length_cons, List.length_nil]
    omega
  case h_10 =>
    dsimp only at h
    split_ifs at h
    obtain ⟨rfl, -⟩ := Prod.mk.inj (Option.some.inj h)
    simp
  all_goals
    obtain ⟨rfl, rfl⟩ := Prod.mk.inj (Option.some.inj h)
    simp [Nat.add_comm]

/-- What a body stands for is no longer than the body, and shorter if there is a backslash. -/
theorem length_unescape?_go {skip : Nat} (h : unescape?.go skip body = some text) :
    text.length ≤ body.length - skip ∧
      ('\\' ∈ body.drop skip → text.length < body.length - skip) := by
  induction body generalizing skip text with
  | nil =>
    obtain rfl := Option.some.inj h
    simp
  | cons c body ih =>
    cases skip with
    | succ skip =>
      simpa using ih h
    | zero =>
      rw [unescape?.go] at h
      split_ifs at h with hc
      · obtain ⟨⟨front, n⟩, hescape, h⟩ := Option.bind_eq_some_iff.mp h
        obtain ⟨rest, hrest, rfl⟩ := Option.map_eq_some_iff.mp h
        have hfront := length_of_escape? hescape
        have := (ih hrest).1
        simp only [List.length_append, List.length_cons]
        omega
      · obtain ⟨rest, hrest, rfl⟩ := Option.map_eq_some_iff.mp h
        obtain ⟨hle, hlt⟩ := ih hrest
        refine ⟨by simpa using hle, fun hmem => ?_⟩
        have hbody : '\\' ∈ body := by simpa [Ne.symm hc] using hmem
        simpa using hlt hbody

/-- **A literal on one line stands for its body** unless there is a backslash that has a meaning. -/
theorem OnLine.value?_eq_body_iff (h : l.OnLine) :
    l.value? = some l.body ↔ (l.quote = .double → '\\' ∉ l.body) := by
  rw [value?, h.1]
  cases l.quote with
  | double =>
    refine ⟨fun hvalue _ hmem => ?_, fun hbody => unescape?_of_notMem (hbody rfl)⟩
    exact absurd ((length_unescape?_go hvalue).2 (by simpa using hmem)) (by simp)
  | single => simp

theorem OnLine.value?_eq (h : l.OnLine) (hbody : '\\' ∉ l.body) : l.value? = some l.body :=
  h.value?_eq_body_iff.mpr fun _ => hbody

/-! ### Literals in a text -/

theorem OnLine.source_eq (h : l.OnLine) : l.source = l.quote.mark :: l.body ++ [l.quote.mark] := by
  rw [source, h.1]
  rfl

/-- No literal on one line is taken off in any other way. -/
theorem onLine_of_take (h : take text = some (l, rest)) (hline : l.multiline = false) :
    l.OnLine := by
  obtain ⟨q, hq⟩ : ∃ q, takeQuoted q text = some (l, rest) := by
    unfold take at h
    split at h
    · exact ⟨.double, h⟩
    · exact ⟨.single, h⟩
    · exact absurd h (by simp)
  unfold takeQuoted at hq
  split at hq
  · obtain ⟨⟨body, rest'⟩, -, hresult⟩ := Option.bind_eq_some_iff.mp hq
    obtain ⟨rfl, -⟩ := Prod.mk.inj (Option.some.inj hresult)
    exact absurd hline (by simp)
  · obtain ⟨⟨body, rest'⟩, htake, hresult⟩ := Option.bind_eq_some_iff.mp hq
    obtain ⟨rfl, -⟩ := Prod.mk.inj (Option.some.inj hresult)
    exact ⟨rfl, (isLine_of_takeLine htake).1⟩

/-- **A literal is read back**, if no third mark follows two. -/
theorem take_append (h : l.OnLine) (hrest : rest.head? ≠ some l.quote.mark) :
    take (l.source ++ rest) = some (l, rest) := by
  obtain ⟨q, multiline, body⟩ := l
  obtain ⟨rfl, hbody⟩ : multiline = false ∧ IsLine q false body := h
  have htext : source ⟨q, false, body⟩ ++ rest = q.mark :: (body ++ q.mark :: rest) := by
    have honLine : OnLine ⟨q, false, body⟩ := ⟨rfl, hbody⟩
    rw [honLine.source_eq]
    simp
  have hthree : ¬ List.replicate 3 q.mark <+: q.mark :: (body ++ q.mark :: rest) := by
    intro hprefix
    obtain ⟨-, hprefix⟩ := List.cons_prefix_cons.mp hprefix
    cases body with
    | nil =>
      obtain ⟨-, hprefix⟩ := List.cons_prefix_cons.mp hprefix
      obtain ⟨more, rfl⟩ := hprefix
      exact hrest rfl
    | cons c body =>
      exact hbody.2.1 ⟨rfl, (List.cons_prefix_cons.mp hprefix).1.symm⟩
  have hquoted : takeQuoted q (q.mark :: (body ++ q.mark :: rest)) =
      some (⟨q, false, body⟩, rest) := by
    rw [takeQuoted, Text.dropPrefix?, if_neg (by rwa [List.isPrefixOf_iff_prefix])]
    simp only [List.drop_succ_cons, List.drop_zero, takeLine_append hbody]
    rfl
  rw [htext]
  cases q <;> exact hquoted

end StringLiteral

end JuliaReleases.Toml
