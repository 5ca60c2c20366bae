import JuliaReleases.CompatRange.Error
import JuliaReleases.Proofs.Range.Intersection

/-!
# Two operators in a row

An operator with another one behind it is a fault, and there are two places that look for it:
`JuliaReleases.attachOperators` when a lone operator follows a lone operator, as in `>= >= 1`, and
`JuliaReleases.Term.read` when a token has two of them, as in `^~1.2`. In between, a lone operator is
joined to the word behind it, so the two places together cover `^ ~1.2`, too.

There is one gap. The blank disappears before a token is looked at, and `>` or `<` in front of a
word that starts with `=` is then a single operator: `> =1` is read as `>=1` is. This is the only
way in which an operator with another one behind it can be accepted
(`JuliaReleases.Term.joins_of_read`), and there the blank makes no difference at all
(`JuliaReleases.Arm.readTerms_joined_iff`).
-/

namespace JuliaReleases

/-! ### Tokens that start with two operators -/

namespace Operator

variable {op op' : Operator} {text next : Text}

/-- **Whether a lone operator joins the operator at the front of the next word** to a longer one,
with something behind it that starts with no operator. -/
def Joins (op : Operator) (next : Text) : Prop :=
  op ∈ [Operator.gt, .lt] ∧ ∃ version, next = '=' :: version ∧ version ≠ [] ∧
    ∀ op' : Operator, ¬ op'.write <+: version

theorem Joins.ne_write (h : op.Joins next) : ∀ op' : Operator, next ≠ op'.write := by
  obtain ⟨-, version, rfl, hne, -⟩ := h
  intro op'
  cases op' <;> simp [write, hne]

theorem Joins.append_ne_write (h : op.Joins next) :
    ∀ op' : Operator, op.write ++ next ≠ op'.write := by
  obtain ⟨-, version, rfl, hne, -⟩ := h
  intro op'
  cases op <;> cases op' <;> simp [write, hne]

/-- No operator joins one that joins the next word itself. -/
theorem Joins.not_joins_append (h : op.Joins next) : ¬ op'.Joins (op.write ++ next) := by
  rintro ⟨-, version, hversion, -⟩
  obtain ⟨hop, -⟩ := h
  simp only [List.mem_cons, List.not_mem_nil, or_false] at hop
  rcases hop with rfl | rfl <;> exact absurd (List.cons.inj hversion).1 (by decide)

theorem not_prefix_of_split_eq_none (h : (split text).1 = none) (op : Operator) :
    ¬ op.write <+: text := by
  have hsplit : split text = (none, operand text) := Prod.ext h rfl
  exact not_prefix_of_split hsplit op

end Operator

/-- **Two operators are read only if they join to one.** -/
theorem Term.joins_of_read {op op' : Operator} {next : Text} {t : Term}
    (hnext : op'.write <+: next) (h : Term.read (op.write ++ next) = .ok t) : op.Joins next := by
  obtain ⟨hnone, hread⟩ := Term.read_eq_ok h
  have hfront := Operator.not_prefix_of_split_eq_none hnone
  by_cases hequals : ∃ version, next = '=' :: version
  · obtain ⟨version, rfl⟩ := hequals
    cases op with
    | gt | lt =>
      obtain ⟨c, rest, rfl, -⟩ : ∃ c rest, version = c :: rest ∧ c ∉ Operator.starts :=
        PartialVersion.exists_eq_cons_of_read hread
      exact ⟨by decide, c :: rest, rfl, List.cons_ne_nil c rest, hfront⟩
    | ge | le | eq | caret | tilde =>
      -- No operator goes on with `=` behind these, so the `=` is a second one.
      exact absurd (List.cons_prefix_cons.mpr ⟨rfl, List.nil_prefix⟩) (hfront .eq)
  · have hsplit : Operator.split (op.write ++ next) = (some op, next) :=
      Operator.split_append (not_exists.mp hequals)
    rw [Operator.operand, hsplit] at hfront
    exact absurd hnext (hfront op')

/-! ### Words around a lone operator -/

namespace Glues

/-- **What a cut between two words does to the tokens**: either it is a cut between two tokens, or
it is between a lone operator and the word that it takes. -/
inductive Cut : List Text → List Text → List Text → Prop
  /-- The words on both sides make their tokens apart. -/
  | between {words words' front rest : List Text} : Glues words front → Glues words' rest →
      Cut words words' (front ++ rest)
  /-- The last word in front of the cut is a lone operator. -/
  | within {before after front rest : List Text} {op : Operator} {word : Text} :
      Glues before front → (∀ op' : Operator, word ≠ op'.write) → Glues after rest →
      Cut (before ++ [op.write]) (word :: after) (front ++ (op.write ++ word) :: rest)

variable {words words' before after tokens : List Text} {op : Operator} {w next : Text}

theorem Cut.word (hw : ∀ op : Operator, w ≠ op.write) (h : Cut words words' tokens) :
    Cut (w :: words) words' (w :: tokens) := by
  cases h with
  | between hfront hrest => exact .between (.word hw hfront) hrest
  | within hfront hnext hrest => exact .within (.word hw hfront) hnext hrest

theorem Cut.operator (hw : ∀ op : Operator, w ≠ op.write) (h : Cut words words' tokens) :
    Cut (op.write :: w :: words) words' ((op.write ++ w) :: tokens) := by
  cases h with
  | between hfront hrest => exact .between (.operator hw hfront) hrest
  | within hfront hnext hrest => exact .within (.operator hw hfront) hnext hrest

/-- Words that make tokens can be cut anywhere. -/
theorem cut (h : Glues (words ++ words') tokens) : Cut words words' tokens := by
  generalize hall : words ++ words' = all at h
  induction h generalizing words with
  | nil =>
    obtain ⟨rfl, rfl⟩ := List.append_eq_nil_iff.mp hall
    exact .between .nil .nil
  | word hw hothers ih =>
    cases words with
    | nil =>
      obtain rfl : words' = _ := hall
      exact .between .nil (.word hw hothers)
    | cons w' words =>
      rw [List.cons_append, List.cons.injEq] at hall
      obtain ⟨rfl, hall⟩ := hall
      exact (ih hall).word hw
  | operator hw hothers ih =>
    rcases words with _ | ⟨w₀, _ | ⟨w', words⟩⟩
    · obtain rfl : words' = _ := hall
      exact .between .nil (.operator hw hothers)
    · rw [List.singleton_append, List.cons.injEq] at hall
      obtain ⟨rfl, rfl⟩ := hall
      exact .within .nil hw hothers
    · rw [List.cons_append, List.cons_append, List.cons.injEq, List.cons.injEq] at hall
      obtain ⟨rfl, rfl, hall⟩ := hall
      exact (ih hall).operator hw

/-- **A lone operator takes the word behind it**, and the words around the two make their tokens
apart. -/
theorem cut_operator (h : Glues (before ++ op.write :: next :: after) tokens) : ∃ front rest,
    tokens = front ++ (op.write ++ next) :: rest ∧ Glues before front ∧ Glues after rest := by
  cases h.cut with
  | within _ hop _ => exact absurd rfl (hop op)
  | between hfront hrest =>
    generalize hwords : op.write :: next :: after = words at hrest
    cases hrest with
    | nil => exact absurd hwords (by simp)
    | word hword => exact absurd (List.cons.inj hwords).1.symm (hword op)
    | operator hword hafter =>
      obtain ⟨hop, hwords⟩ := List.cons_eq_cons.mp hwords
      obtain ⟨rfl, rfl⟩ := List.cons_eq_cons.mp hwords
      exact ⟨_, _, by rw [hop], hfront, hafter⟩

/-- **Any other word is a token**, unless it is taken by a lone operator in front of it. -/
theorem cut_word (hw : ∀ op : Operator, w ≠ op.write) (h : Glues (before ++ w :: after) tokens) :
    (∃ front rest, tokens = front ++ w :: rest ∧ Glues before front ∧ Glues after rest) ∨
      ∃ op : Operator, op.write ++ w ∈ tokens := by
  cases h.cut with
  | @within _ _ _ _ op _ _ _ _ => exact .inr ⟨op, by simp⟩
  | between hfront hrest =>
    generalize hwords : w :: after = words at hrest
    cases hrest with
    | nil => exact absurd hwords (by simp)
    | word _ hafter =>
      obtain ⟨rfl, rfl⟩ := List.cons_eq_cons.mp hwords
      exact .inl ⟨_, _, rfl, hfront, hafter⟩
    | operator => exact absurd (List.cons.inj hwords).1 (hw _)

end Glues

/-! ### Arms with a lone operator -/

namespace Arm

variable {piece joined next : Text} {before after : List Text} {op op' : Operator}
  {terms : List Term}

variable (hhyphen : ¬ " - ".toList <:+: Text.trim piece)
  (hwords : Text.words piece = before ++ op.write :: next :: after)
include hhyphen hwords

/-- **Two operators in a row are accepted only if they join.** -/
theorem joins_of_readTerms (hnext : op'.write <+: next) (h : readTerms piece = .ok terms) :
    op.Joins next := by
  obtain ⟨tokens, hglues, hread⟩ := (readTerms_eq_ok_iff hhyphen).mp h
  rw [hwords] at hglues
  obtain ⟨front, rest, rfl, -, -⟩ := hglues.cut_operator
  have hmem : op.write ++ next ∈ front ++ (op.write ++ next) :: rest := by simp
  obtain ⟨t, -, ht⟩ := exists_mem_of_mem_read hread hmem
  exact Term.joins_of_read hnext ht

/-- **The blank between operators that join makes no difference.** -/
theorem readTerms_joined_iff (hjoins : op.Joins next)
    (hhyphen' : ¬ " - ".toList <:+: Text.trim joined)
    (hwords' : Text.words joined = before ++ (op.write ++ next) :: after) :
    readTerms piece = .ok terms ↔ readTerms joined = .ok terms := by
  rw [readTerms_eq_ok_iff hhyphen, readTerms_eq_ok_iff hhyphen', hwords, hwords']
  refine exists_congr fun tokens => and_congr_left fun hread => ⟨fun h => ?_, fun h => ?_⟩
  · obtain ⟨front, rest, rfl, hbefore, hafter⟩ := h.cut_operator
    exact hbefore.append (.word hjoins.append_ne_write hafter)
  · rcases h.cut_word hjoins.append_ne_write with ⟨front, rest, rfl, hbefore, hafter⟩ | ⟨op₀, hmem⟩
    · exact hbefore.append (.operator hjoins.ne_write hafter)
    · -- A third operator in front would be one too many.
      obtain ⟨t, -, ht⟩ := exists_mem_of_mem_read hread hmem
      exact absurd (Term.joins_of_read (List.prefix_append _ _) ht) hjoins.not_joins_append

end Arm

/-- **Two operators in a row are refused**, under either policy and whatever else the range
consists of, unless they join. If they do, the arm is read as it is without the blank between
them. -/
theorem stacked_operators_refused (policy : PrereleasePolicy) {text piece : Text}
    (hpiece : piece ∈ Text.pieces "||".toList text) (hhyphen : ¬ " - ".toList <:+: Text.trim piece)
    {before after : List Text} {op op' : Operator} {next : Text}
    (hwords : Text.words piece = before ++ op.write :: next :: after) (hnext : op'.write <+: next) :
    (¬ op.Joins next → ∃ e, Range.ofText policy text = .error e) ∧
      (op.Joins next → ∀ joined : Text, ¬ " - ".toList <:+: Text.trim joined →
        Text.words joined = before ++ (op.write ++ next) :: after →
          ∀ arm, Arm.read policy piece = .ok arm ↔ Arm.read policy joined = .ok arm) := by
  refine ⟨fun hjoins => ?_, fun hjoins joined hhyphen' hwords' arm => ?_⟩
  · cases hread : Range.ofText policy text with
    | error e => exact ⟨e, rfl⟩
    | ok r =>
      obtain ⟨terms, hterms⟩ :=
        Range.exists_readTerms_of_read (mapError_eq_ok_iff.mp hread) hpiece
      exact absurd (Arm.joins_of_readTerms hhyphen hwords hnext hterms) hjoins
  · simp only [Arm.read_eq, map_eq_ok_iff,
      Arm.readTerms_joined_iff hhyphen hwords hjoins hhyphen' hwords']

/-- A tilde behind a caret, in the second arm of a range. -/
theorem stacked_operators_refused_caret :
    " >=1 ^ ~1.2 <3".toList ∈ Text.pieces "||".toList "1.0 || >=1 ^ ~1.2 <3".toList ∧
      ¬ " - ".toList <:+: Text.trim " >=1 ^ ~1.2 <3".toList ∧
      Text.words " >=1 ^ ~1.2 <3".toList =
        [">=1".toList] ++ Operator.caret.write :: "~1.2".toList :: ["<3".toList] ∧
      Operator.tilde.write <+: "~1.2".toList ∧ ¬ Operator.caret.Joins "~1.2".toList ∧
      ∃ e, Range.ofText .included "1.0 || >=1 ^ ~1.2 <3".toList = .error e := by
  have hpiece : " >=1 ^ ~1.2 <3".toList ∈ Text.pieces "||".toList "1.0 || >=1 ^ ~1.2 <3".toList := by
    decide
  have hhyphen : ¬ " - ".toList <:+: Text.trim " >=1 ^ ~1.2 <3".toList :=
    (Text.pieces_eq_singleton_iff (by decide)).mp rfl
  have hwords : Text.words " >=1 ^ ~1.2 <3".toList =
      [">=1".toList] ++ Operator.caret.write :: "~1.2".toList :: ["<3".toList] := rfl
  have hnext : Operator.tilde.write <+: "~1.2".toList := ⟨"1.2".toList, rfl⟩
  have hjoins : ¬ Operator.caret.Joins "~1.2".toList := fun h => absurd h.1 (by decide)
  exact ⟨hpiece, hhyphen, hwords, hnext, hjoins,
    (stacked_operators_refused .included hpiece hhyphen hwords hnext).1 hjoins⟩

/-- In `> =1.2` an operator follows another one, and the text is a range. -/
theorem exists_stacked_operators_read : ∃ (text next : Text) (op op' : Operator) (r : Range),
    Text.pieces "||".toList text = [text] ∧ ¬ " - ".toList <:+: text ∧
      Text.words text = [op.write, next] ∧ op'.write <+: next ∧
      Range.ofText .named text = .ok r ∧ Range.ofText .named ">=1.2".toList = .ok r :=
  ⟨"> =1.2".toList, "=1.2".toList, .gt, .eq, _, rfl,
    (Text.pieces_eq_singleton_iff (by decide)).mp rfl, rfl, ⟨"1.2".toList, rfl⟩, rfl, rfl⟩

end JuliaReleases
