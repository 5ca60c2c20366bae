import JuliaReleases.Proofs.Reading
import JuliaReleases.Proofs.Text.Cutting
import JuliaReleases.Range.Format

/-!
# Operators at the front of a text

What `JuliaReleases.Operator.split` takes off a text depends on its first two characters only. This
file draws two consequences:

* `JuliaReleases.Operator.split_append` – an operator in front of a text is the one that is taken
  off, unless the text starts with `=` and makes another operator of it;
* `JuliaReleases.Operator.operand_append` – joining an operator to the word behind it does not
  change where the version of that word starts, unless the result has two operators.

By the second, `JuliaReleases.attachOperators` keeps the versions of the words, in order
(`JuliaReleases.map_operand_of_attachOperators`).
-/

namespace JuliaReleases

namespace Operator

variable {op : Operator} {text : Text}

/-- The characters that operators start with. -/
def starts : List Char :=
  ['>', '<', '=', '^', '~']

/-- What follows the operator at the front of a text, or the text if it starts with none. -/
def operand (text : Text) : Text :=
  (split text).2

theorem split_of_not_mem {c : Char} (h : c ∉ starts) (rest : Text) :
    split (c :: rest) = (none, c :: rest) := by
  simp only [starts, List.mem_cons, List.not_mem_nil, or_false, not_or] at h
  obtain ⟨hgt, hlt, heq, hcaret, htilde⟩ := h
  simp [split, all, write, Ne.symm hgt, Ne.symm hlt, Ne.symm heq, Ne.symm hcaret, Ne.symm htilde]

theorem split_append (h : ∀ rest, text ≠ '=' :: rest) :
    split (op.write ++ text) = (some op, text) := by
  cases text with
  | nil => cases op <;> rfl
  | cons c rest =>
    have hc : '=' ≠ c := by
      rintro rfl
      exact h rest rfl
    cases op <;> simp [split, all, write, hc]

theorem operand_of_split_eq_none (h : (split text).1 = none) : operand text = text := by
  rw [operand]
  unfold split at h ⊢
  cases hfind : all.find? (·.write.isPrefixOf text) with
  | none => rfl
  | some op =>
    rw [hfind] at h
    exact absurd h (by simp)

/-- Joining an operator to a word leaves the version in the word alone, if only one operator is
taken off the result. -/
theorem operand_append (h : (split (operand (op.write ++ text))).1 = none) :
    operand (op.write ++ text) = operand text := by
  by_cases heq : ∃ rest, text = '=' :: rest
  · obtain ⟨rest, rfl⟩ := heq
    -- Only `>` and `<` make another operator with the `=`; behind the others it is one too many.
    cases op with
    | gt | lt => rfl
    | ge | le | eq | caret | tilde => exact absurd h (by simp [operand, split, all, write])
  · push Not at heq
    rw [operand, split_append heq] at h ⊢
    exact (operand_of_split_eq_none h).symm

theorem write_ne_nil (op : Operator) : op.write ≠ [] := by
  cases op <;> exact List.cons_ne_nil _ _

theorem mem_starts_of_mem_write {c : Char} (h : c ∈ op.write) : c ∈ starts := by
  have hwrite : op.write ⊆ starts := by cases op <;> decide
  exact hwrite h

theorem isBlank_eq_false_of_mem_starts {c : Char} (h : c ∈ starts) : isBlank c = false := by
  have hstarts : Text.IsWord starts := by decide
  exact hstarts.2 c h

theorem isWord_write (op : Operator) : Text.IsWord op.write :=
  ⟨op.write_ne_nil, fun _ hc => isBlank_eq_false_of_mem_starts (mem_starts_of_mem_write hc)⟩

/-- An operator has no character of a text in which no operator starts. -/
theorem notMem_of_mem_write (h : ∀ c ∈ starts, c ∉ text) {c : Char} (hc : c ∈ op.write) :
    c ∉ text :=
  h c (mem_starts_of_mem_write hc)

theorem isDigit_eq_false_of_mem_starts {c : Char} (h : c ∈ starts) : c.isDigit = false := by
  have hstarts : starts.all (!·.isDigit) = true := by decide
  simpa using List.all_eq_true.mp hstarts c h

theorem read?_eq_some_iff : read? text = some op ↔ text = op.write := by
  constructor
  · intro h
    have hwrite := List.find?_some h
    exact (of_decide_eq_true hwrite).symm
  · rintro rfl
    cases op <;> rfl

/-- A text that starts with no operator is none. -/
theorem read?_cons_of_notMem {c : Char} (h : c ∉ starts) (rest : Text) :
    read? (c :: rest) = none := by
  refine Option.eq_none_iff_forall_ne_some.mpr fun op hop => h ?_
  exact mem_starts_of_mem_write (read?_eq_some_iff.mp hop ▸ List.mem_cons_self)

/-- An operator with something behind it is no lone operator. -/
theorem read?_append (h : ∀ rest, text ≠ '=' :: rest) (hne : text ≠ []) :
    read? (op.write ++ text) = none := by
  refine Option.eq_none_iff_forall_ne_some.mpr fun op' hop' => hne ?_
  have hsplit : split (op.write ++ text) = (some op', []) := by
    rw [read?_eq_some_iff.mp hop', ← List.append_nil op'.write]
    exact split_append (by simp)
  rw [split_append h] at hsplit
  exact congrArg Prod.snd hsplit

end Operator

/-- Words without a lone operator among them are left alone. -/
theorem attachOperators_of_read?_eq_none {words : List Text}
    (h : ∀ word ∈ words, Operator.read? word = none) : attachOperators words = .ok words := by
  induction words with
  | nil => rfl
  | cons word words ih =>
    rw [attachOperators, h word List.mem_cons_self]
    rw [ih fun w hw => h w (List.mem_cons_of_mem _ hw)]
    rfl

/-- **Joining operators keeps the versions**: the words that are no lone operators, without the
operators at their fronts, are the tokens without theirs. -/
theorem map_operand_of_attachOperators {words tokens : List Text}
    (h : attachOperators words = .ok tokens)
    (hread : ∀ token ∈ tokens, (Operator.split (Operator.operand token)).1 = none) :
    tokens.map Operator.operand =
      (words.filter fun word => (Operator.read? word).isNone).map Operator.operand := by
  fun_induction attachOperators words generalizing tokens with
  | case1 =>
    obtain rfl : [] = tokens := Except.ok.inj h
    rfl
  | case2 word words hword ih =>
    obtain ⟨rest, hrest, rfl⟩ := map_eq_ok_iff.mp h
    rw [List.filter_cons_of_pos (by simp [hword]), List.map_cons, List.map_cons,
      ih hrest fun token htoken => hread token (List.mem_cons_of_mem _ htoken)]
  | case3 word op hword => exact absurd h (by simp)
  | case4 word op hword next words second hnext => exact absurd h (by simp)
  | case5 word op hword next words hnext ih =>
    obtain ⟨rest, hrest, rfl⟩ := map_eq_ok_iff.mp h
    have hoperand : Operator.operand (word ++ next) = Operator.operand next := by
      obtain rfl : word = op.write := Operator.read?_eq_some_iff.mp hword
      exact Operator.operand_append (hread _ List.mem_cons_self)
    rw [List.filter_cons_of_neg (by simp [hword]), List.filter_cons_of_pos (by simp [hnext]),
      List.map_cons, List.map_cons, hoperand,
      ih hrest fun token htoken => hread token (List.mem_cons_of_mem _ htoken)]

end JuliaReleases
