import JuliaReleases.Proofs.Toml.Key

/-!
# What is written is read back

Keys and strings on one line that are put into a document are found there again. The lemmas follow
the layers of the reader:

* a key without points, and one with points (`JuliaReleases.Toml.takeSimpleKey_append`,
  `JuliaReleases.Toml.takeKey_append`);
* pairs, one on each line (`JuliaReleases.Toml.takePairs_lines`) or between braces
  (`JuliaReleases.Toml.takeInlinePairs_append`);
* documents with one table (`JuliaReleases.Toml.read?_header`,
  `JuliaReleases.Toml.read?_inlineTable`) or without any (`JuliaReleases.Toml.read?_lines`).

At each layer something has to be said of what follows, for a key may go on behind a blank, and two
marks may be the first two of three.
-/

namespace JuliaReleases.Toml

/-! ### Where a key begins and ends -/

/-- A character that a key begins with. -/
def StartsKey (c : Char) : Prop :=
  isBareKeyChar c = true ∨ ∃ q : Quote, c = q.mark

/-- A place at which a simple key does not go on. -/
def EndsKey (text : Text) : Prop :=
  ∀ c ∈ text.head?, ¬ StartsKey c

instance : DecidablePred StartsKey := fun c =>
  decidable_of_iff (isBareKeyChar c = true ∨ c = Quote.double.mark ∨ c = Quote.single.mark)
    (or_congr_right ⟨fun h => h.elim (⟨_, ·⟩) (⟨_, ·⟩), fun ⟨q, hq⟩ => match q with
      | .double => .inl hq
      | .single => .inr hq⟩)

theorem endsKey_cons {c : Char} (h : ¬ StartsKey c) (rest : Text) : EndsKey (c :: rest) :=
  fun _ hc => Option.some.inj hc ▸ h

theorem skipBlanks_cons {c : Char} (h : isLineBlank c = false) (rest : Text) :
    skipBlanks (c :: rest) = c :: rest :=
  List.dropWhile_cons_of_neg (by simp [h])

section StartsKey

variable {c : Char} (h : StartsKey c)
include h

theorem StartsKey.ne {d : Char} (hd : ¬ StartsKey d) : c ≠ d := fun hc => hd (hc ▸ h)

theorem StartsKey.isLineBlank : isLineBlank c = false := by
  have hspace : c ≠ ' ' := h.ne (by decide)
  have htab : c ≠ '\t' := h.ne (by decide)
  simp [Toml.isLineBlank, hspace, htab]

end StartsKey

theorem SimpleKey.exists_source_eq_cons {k : SimpleKey} (h : k.WellFormed) :
    ∃ c rest, k.source = c :: rest ∧ StartsKey c := by
  cases k with
  | bare name =>
    obtain ⟨c, rest, rfl⟩ := List.exists_cons_of_ne_nil h.1
    exact ⟨c, rest, rfl, .inl (h.2 c List.mem_cons_self)⟩
  | quoted l =>
    exact ⟨l.quote.mark, _, StringLiteral.OnLine.source_eq h, .inr ⟨l.quote, rfl⟩⟩

theorem skipBlanks_source {k : SimpleKey} (h : k.WellFormed) (rest : Text) :
    skipBlanks (k.source ++ rest) = k.source ++ rest := by
  obtain ⟨c, more, hsource, hc⟩ := SimpleKey.exists_source_eq_cons h
  rw [hsource]
  exact skipBlanks_cons hc.isLineBlank _

/-! ### Keys -/

/-- **A simple key is read back.** -/
theorem takeSimpleKey_append {k : SimpleKey} {rest : Text} (h : k.WellFormed)
    (hrest : EndsKey rest) : takeSimpleKey (k.source ++ rest) = some (k, rest) := by
  cases k with
  | bare name =>
    have hend : ∀ c ∈ rest.head?, isBareKeyChar c = false := fun c hc =>
      Bool.eq_false_iff.mpr fun hbare => hrest c hc (.inl hbare)
    obtain ⟨c, more, rfl⟩ := List.exists_cons_of_ne_nil h.1
    have htake : (c :: more ++ rest).takeWhile isBareKeyChar = c :: more := by
      rw [List.takeWhile_append_of_pos h.2]
      cases rest with
      | nil => simp
      | cons d rest => rw [List.takeWhile_cons_of_neg (by simp [hend d rfl]), List.append_nil]
    have hdrop : (c :: more ++ rest).dropWhile isBareKeyChar = rest := by
      rw [List.dropWhile_append_of_pos h.2]
      cases rest with
      | nil => rfl
      | cons d rest => exact List.dropWhile_cons_of_neg (by simp [hend d rfl])
    rw [SimpleKey.source]
    rw [List.cons_append] at htake hdrop ⊢
    rw [takeSimpleKey, if_pos (h.2 c List.mem_cons_self), htake, hdrop]
  | quoted l =>
    have htake := StringLiteral.take_append h fun hmark => hrest _ hmark (.inr ⟨l.quote, rfl⟩)
    have hmark : isBareKeyChar l.quote.mark = false := by
      cases l.quote <;> decide
    have hline : l.multiline = false := h.1
    rw [SimpleKey.source]
    rw [StringLiteral.OnLine.source_eq h] at htake ⊢
    rw [List.cons_append, List.cons_append] at htake ⊢
    rw [takeSimpleKey, if_neg (by simp [hmark]), htake]
    simp [hline]

namespace Key

theorem source_eq (k : Key) :
    k.source = k.first.source ++ k.others.flatMap fun part => '.' :: part.source := by
  obtain ⟨first, others⟩ := k
  rw [source]
  induction others generalizing first with
  | nil => simp
  | cons second others ih =>
    rw [List.map_cons, List.map_cons, List.intercalate_cons_cons, ← List.map_cons, ih second]
    simp

theorem exists_source_eq_cons {k : Key} (h : k.WellFormed) :
    ∃ c rest, k.source = c :: rest ∧ StartsKey c := by
  obtain ⟨c, rest, hsource, hc⟩ := SimpleKey.exists_source_eq_cons (h _ List.mem_cons_self)
  exact ⟨c, _, by rw [source_eq, hsource, List.cons_append], hc⟩

end Key

theorem takeOtherKeys_append {others : List SimpleKey} {rest : Text}
    (h : ∀ part ∈ others, part.WellFormed) (hrest : EndsKey rest)
    (hpoint : (skipBlanks rest).head? ≠ some '.') {bound : Nat} (hbound : others.length ≤ bound) :
    takeOtherKeys bound (others.flatMap (fun part => '.' :: part.source) ++ rest) =
      some (others, rest) := by
  induction others generalizing bound with
  | nil =>
    cases bound with
    | zero => rfl
    | succ bound =>
      rw [List.flatMap_nil, List.nil_append, takeOtherKeys]
      split
      · next hblanks => exact absurd (congrArg List.head? hblanks) hpoint
      · rfl
  | cons part others ih =>
    obtain ⟨hpart, hothers⟩ := List.forall_mem_cons.mp h
    cases bound with
    | zero => exact absurd hbound (by simp)
    | succ bound =>
      have hends : EndsKey (others.flatMap (fun part => '.' :: part.source) ++ rest) := by
        cases others with
        | nil => exact hrest
        | cons next others => exact endsKey_cons (by decide) _
      have hskip := skipBlanks_source hpart
        (others.flatMap (fun part => '.' :: part.source) ++ rest)
      rw [List.flatMap_cons, List.append_assoc, List.cons_append, takeOtherKeys,
        skipBlanks_cons (by decide)]
      simp only [hskip]
      exact Option.bind_eq_some_iff.mpr ⟨_, takeSimpleKey_append hpart hends,
        Option.bind_eq_some_iff.mpr ⟨_, ih hothers (Nat.le_of_succ_le_succ hbound), rfl⟩⟩

theorem length_le_length_flatMap (others : List SimpleKey) :
    others.length ≤ (others.flatMap fun part => '.' :: part.source).length := by
  induction others with
  | nil => exact le_rfl
  | cons part others ih =>
    simp only [List.flatMap_cons, List.length_append, List.length_cons]
    omega

/-- **A key is read back.** -/
theorem takeKey_append {k : Key} {rest : Text} (h : k.WellFormed) (hrest : EndsKey rest)
    (hpoint : (skipBlanks rest).head? ≠ some '.') :
    takeKey (k.source ++ rest) = some (k, rest) := by
  obtain ⟨hfirst, hothers⟩ := List.forall_mem_cons.mp h
  have hends : EndsKey (k.others.flatMap (fun part => '.' :: part.source) ++ rest) := by
    cases k.others with
    | nil => exact hrest
    | cons next others => exact endsKey_cons (by decide) _
  have hbound : k.others.length ≤
      (k.others.flatMap (fun part => '.' :: part.source) ++ rest).length := by
    rw [List.length_append]
    exact le_trans (length_le_length_flatMap k.others) (Nat.le_add_right _ _)
  rw [takeKey, Key.source_eq, List.append_assoc]
  exact Option.bind_eq_some_iff.mpr ⟨_, takeSimpleKey_append hfirst hends,
    Option.bind_eq_some_iff.mpr ⟨_, takeOtherKeys_append hothers hrest hpoint hbound, rfl⟩⟩

/-! ### Pairs -/

/-- A pair with a string, as it is written. -/
def assignment (k : Key) (l : StringLiteral) : Text :=
  k.source ++ " = ".toList ++ l.source

section Assignment

variable {k : Key} {l : StringLiteral} (hk : k.WellFormed)
include hk

/-- A key and the sign of equality are read back in front of a value. -/
theorem takeAssigned_source {c : Char} (hc : isLineBlank c = false) (rest : Text) :
    takeAssigned (k.source ++ " = ".toList ++ c :: rest) = some (k, c :: rest) := by
  have hkey : takeKey (k.source ++ (" = ".toList ++ c :: rest)) =
      some (k, " = ".toList ++ c :: rest) := by
    refine takeKey_append hk (endsKey_cons (by decide) _) ?_
    · show ('=' :: _ : Text).head? ≠ some '.'
      simp
  have hvalue : skipBlanks (' ' :: c :: rest) = c :: rest := skipBlanks_cons hc rest
  rw [List.append_assoc, takeAssigned, hkey]
  exact congrArg (fun text => some (k, text)) hvalue

theorem takeAssigned_append (hl : l.OnLine) (rest : Text) :
    takeAssigned (assignment k l ++ rest) = some (k, l.source ++ rest) := by
  have hmark : isLineBlank l.quote.mark = false := by
    cases l.quote <;> decide
  rw [assignment, List.append_assoc, hl.source_eq, List.cons_append, List.cons_append]
  exact takeAssigned_source hk hmark _

/-- The first character of a pair is one that a key begins with. -/
theorem exists_assignment_append_eq_cons (rest : Text) :
    ∃ c more, assignment k l ++ rest = c :: more ∧ StartsKey c := by
  obtain ⟨c, more, hsource, hc⟩ := Key.exists_source_eq_cons hk
  refine ⟨c, more ++ (" = ".toList ++ (l.source ++ rest)), ?_, hc⟩
  rw [assignment, hsource]
  simp

end Assignment

theorem takeValue_append {l : StringLiteral} (hl : l.OnLine) {rest : Text}
    (hrest : rest.head? ≠ some l.quote.mark) (bound : Nat) :
    takeValue (bound + 1) (l.source ++ rest) = some (.string l, rest) := by
  have htake := StringLiteral.take_append hl hrest
  rw [hl.source_eq, List.cons_append, List.cons_append] at htake ⊢
  cases hq : l.quote with
  | double =>
    rw [hq, Quote.mark] at htake
    rw [Quote.mark, takeValue]
    exact Option.bind_eq_some_iff.mpr ⟨_, htake, rfl⟩
  | single =>
    rw [hq, Quote.mark] at htake
    rw [Quote.mark, takeValue]
    exact Option.bind_eq_some_iff.mpr ⟨_, htake, rfl⟩

/-! ### Lines -/

theorem skipFiller_cons {c : Char} (h : StartsKey c) (rest : Text) :
    skipFiller (c :: rest) = c :: rest := by
  have hspace : c ≠ ' ' := h.ne (by decide)
  have htab : c ≠ '\t' := h.ne (by decide)
  have hfeed : c ≠ '\n' := h.ne (by decide)
  have hreturn : c ≠ '\r' := h.ne (by decide)
  have hhash : c ≠ '#' := h.ne (by decide)
  simp [skipFiller, skipFiller.go, StringLiteral.isFiller, hspace, htab, hfeed, hreturn, hhash]

/-- Where a key begins, no header does and no end is. -/
theorem takePairs_of_startsKey {c : Char} (h : StartsKey c) (more : Text) (bound : Nat) :
    takePairs (bound + 1) (c :: more) = (do
      let (key, rest) ← takeAssigned (c :: more)
      let (value, rest) ← takeValue rest.length rest
      let rest ← endLine? rest
      let (pairs, rest) ← takePairs bound rest
      return ((key, value) :: pairs, rest)) := by
  have hbracket : c ≠ '[' := h.ne (by decide)
  rw [takePairs, skipFiller_cons h]
  split
  · next heq => exact absurd heq (List.cons_ne_nil _ _)
  · next heq => exact absurd (List.cons.inj heq).1 hbracket
  · rfl

/-- Pairs with strings, one on each line. -/
def linesText (lines : List (Key × StringLiteral)) : Text :=
  lines.flatMap fun line => assignment line.1 line.2 ++ ['\n']

/-- **Lines are read back.** -/
theorem takePairs_lines {lines : List (Key × StringLiteral)}
    (h : ∀ line ∈ lines, line.1.WellFormed ∧ line.2.OnLine) {bound : Nat}
    (hbound : lines.length < bound) : takePairs bound (linesText lines) =
      some (lines.map fun line => (line.1, .string line.2), []) := by
  induction lines generalizing bound with
  | nil =>
    obtain ⟨bound, rfl⟩ := Nat.exists_eq_add_one.mpr hbound
    rfl
  | cons line lines ih =>
    obtain ⟨⟨hkey, hliteral⟩, hlines⟩ := List.forall_mem_cons.mp h
    obtain ⟨bound, rfl⟩ := Nat.exists_eq_add_one.mpr (Nat.zero_lt_of_lt hbound)
    have htext : linesText (line :: lines) =
        assignment line.1 line.2 ++ '\n' :: linesText lines := by
      simp [linesText]
    have hassigned := takeAssigned_append hkey hliteral ('\n' :: linesText lines)
    have hvalue : ∀ n, takeValue (n + 1) (line.2.source ++ '\n' :: linesText lines) =
        some (.string line.2, '\n' :: linesText lines) :=
      takeValue_append hliteral fun hmark =>
        line.2.quote.mark_ne_lineEnd (Option.some.inj hmark).symm
    obtain ⟨c, more, hcons, hc⟩ := exists_assignment_append_eq_cons hkey (l := line.2)
      ('\n' :: linesText lines)
    rw [htext, hcons, takePairs_of_startsKey hc, ← hcons]
    -- The bound on the value is the length of the text in front of which it stands.
    obtain ⟨n, hn⟩ : ∃ n, (line.2.source ++ '\n' :: linesText lines).length = n + 1 := by
      refine Nat.exists_eq_add_one.mpr (List.length_pos_of_mem (a := '\n') ?_)
      exact List.mem_append_right _ List.mem_cons_self
    refine Option.bind_eq_some_iff.mpr ⟨_, hassigned, ?_⟩
    dsimp only
    rw [hn]
    exact Option.bind_eq_some_iff.mpr ⟨_, hvalue n, Option.bind_eq_some_iff.mpr ⟨linesText lines,
      rfl, Option.bind_eq_some_iff.mpr ⟨_, ih hlines (Nat.lt_of_succ_lt_succ hbound), rfl⟩⟩⟩

/-! ### Tables between braces -/

/-- Pairs with strings and commas between them. -/
def pairsText (pairs : List (Key × StringLiteral)) : Text :=
  ", ".toList.intercalate (pairs.map fun pair => assignment pair.1 pair.2)

theorem pairsText_singleton (pair : Key × StringLiteral) :
    pairsText [pair] = assignment pair.1 pair.2 :=
  List.intercalate_singleton

theorem pairsText_cons_cons (pair next : Key × StringLiteral)
    (pairs : List (Key × StringLiteral)) : pairsText (pair :: next :: pairs) =
      assignment pair.1 pair.2 ++ ',' :: ' ' :: pairsText (next :: pairs) := by
  simp [pairsText, List.intercalate_cons_cons]

theorem exists_pairsText_append_eq_cons {pairs : List (Key × StringLiteral)} (hne : pairs ≠ [])
    (h : ∀ pair ∈ pairs, pair.1.WellFormed ∧ pair.2.OnLine) (rest : Text) :
    ∃ c more, pairsText pairs ++ rest = c :: more ∧ StartsKey c := by
  obtain ⟨pair, pairs, rfl⟩ := List.exists_cons_of_ne_nil hne
  have hkey := (h pair List.mem_cons_self).1
  cases pairs with
  | nil =>
    rw [pairsText_singleton]
    exact exists_assignment_append_eq_cons hkey rest
  | cons next pairs =>
    rw [pairsText_cons_cons, List.append_assoc]
    exact exists_assignment_append_eq_cons hkey _

/-- **Pairs between braces are read back**, up to the closing brace. -/
theorem takeInlinePairs_append {pairs : List (Key × StringLiteral)} (hne : pairs ≠ [])
    (h : ∀ pair ∈ pairs, pair.1.WellFormed ∧ pair.2.OnLine) (rest : Text) {bound : Nat}
    (hbound : pairs.length < bound) :
    takeInlinePairs bound (pairsText pairs ++ ' ' :: '\x7d' :: rest) =
      some (pairs.map fun pair => (pair.1, .string pair.2), rest) := by
  induction pairs generalizing bound with
  | nil => exact absurd rfl hne
  | cons pair pairs ih =>
    obtain ⟨⟨hkey, hliteral⟩, hpairs⟩ := List.forall_mem_cons.mp h
    obtain ⟨bound, rfl⟩ := Nat.exists_eq_add_one.mpr (Nat.zero_lt_of_lt hbound)
    obtain ⟨n, rfl⟩ := Nat.exists_eq_add_one.mpr
      (Nat.zero_lt_of_lt (Nat.lt_of_succ_lt_succ hbound))
    have hvalue : ∀ c ∈ [' ', ','], ∀ more, takeValue (n + 1) (pair.2.source ++ c :: more) =
        some (.string pair.2, c :: more) := by
      intro c hc more
      refine takeValue_append hliteral (fun hmark => ?_) n
      obtain rfl := Option.some.inj hmark
      cases hq : pair.2.quote <;> simp [hq, Quote.mark] at hc
    cases pairs with
    | nil =>
      rw [pairsText_singleton, takeInlinePairs]
      exact Option.bind_eq_some_iff.mpr ⟨_, takeAssigned_append hkey hliteral _,
        Option.bind_eq_some_iff.mpr ⟨_, hvalue ' ' (by simp) _, rfl⟩⟩
    | cons next pairs =>
      have hrest := ih (List.cons_ne_nil _ _) hpairs (Nat.lt_of_succ_lt_succ hbound)
      obtain ⟨c, more, hcons, hc⟩ := exists_pairsText_append_eq_cons (List.cons_ne_nil _ _) hpairs
        (' ' :: '\x7d' :: rest)
      rw [hcons] at hrest
      rw [pairsText_cons_cons, List.append_assoc, List.cons_append, List.cons_append, hcons,
        takeInlinePairs]
      refine Option.bind_eq_some_iff.mpr ⟨_, takeAssigned_append hkey hliteral _,
        Option.bind_eq_some_iff.mpr ⟨_, hvalue ',' (by simp) _, ?_⟩⟩
      -- Behind the comma the reader passes over a blank, and then the next key begins.
      have hskip : skipBlanks (' ' :: c :: more) = c :: more := skipBlanks_cons hc.isLineBlank more
      exact Option.bind_eq_some_iff.mpr ⟨_, hskip ▸ hrest, rfl⟩

theorem length_le_length_pairsText (pairs : List (Key × StringLiteral)) :
    pairs.length ≤ (pairsText pairs).length := by
  induction pairs with
  | nil => exact le_rfl
  | cons pair pairs ih =>
    cases pairs with
    | nil =>
      rw [pairsText_singleton, assignment, List.length_append, List.length_append]
      have hsign : " = ".toList.length = 3 := rfl
      rw [hsign, List.length_singleton]
      omega
    | cons next pairs =>
      rw [pairsText_cons_cons]
      simp only [List.length_append, List.length_cons] at ih ⊢
      omega

/-- **A table between braces is read back.** -/
theorem takeValue_inlineTable {pairs : List (Key × StringLiteral)} (hne : pairs ≠ [])
    (h : ∀ pair ∈ pairs, pair.1.WellFormed ∧ pair.2.OnLine) (rest : Text) {bound : Nat}
    (hbound : pairs.length < bound) :
    takeValue (bound + 1) ('\x7b' :: ' ' :: (pairsText pairs ++ ' ' :: '\x7d' :: rest)) =
      some (.inlineTable (pairs.map fun pair => (pair.1, .string pair.2)), rest) := by
  have hpairs := takeInlinePairs_append hne h rest hbound
  obtain ⟨c, more, hcons, hc⟩ := exists_pairsText_append_eq_cons hne h (' ' :: '\x7d' :: rest)
  have hskip : skipBlanks (' ' :: c :: more) = c :: more := skipBlanks_cons hc.isLineBlank more
  -- The first pair keeps the braces from being taken for an empty table.
  have hbrace : c ≠ '\x7d' := hc.ne (by decide)
  rw [hcons] at hpairs ⊢
  rw [takeValue, hskip]
  split
  · next heq => exact absurd (List.cons.inj heq).1 hbrace
  · exact Option.bind_eq_some_iff.mpr ⟨_, hpairs, rfl⟩

/-! ### Documents -/

theorem length_le_length_linesText (lines : List (Key × StringLiteral)) :
    lines.length ≤ (linesText lines).length := by
  induction lines with
  | nil => exact le_rfl
  | cons line lines ih =>
    rw [linesText] at ih ⊢
    simp only [List.flatMap_cons, List.length_append, List.length_cons, List.length_nil]
    omega

theorem head?_linesText {lines : List (Key × StringLiteral)}
    (h : ∀ line ∈ lines, line.1.WellFormed ∧ line.2.OnLine) :
    ∀ c ∈ (linesText lines).head?, StartsKey c := by
  intro c hc
  cases lines with
  | nil => exact absurd hc (by simp [linesText])
  | cons line lines =>
    obtain ⟨d, more, hcons, hd⟩ := exists_assignment_append_eq_cons
      (h line List.mem_cons_self).1 (l := line.2) ('\n' :: linesText lines)
    have htext : linesText (line :: lines) = d :: more := by
      rw [← hcons]
      simp [linesText]
    rw [htext] at hc
    exact Option.some.inj hc ▸ hd

/-- A header is read back. -/
theorem takeHeader_append {k : Key} (h : k.WellFormed) (rest : Text) :
    takeHeader ('[' :: (k.source ++ ']' :: '\n' :: rest)) = some (false, k, rest) := by
  obtain ⟨c, more, hsource, hc⟩ := Key.exists_source_eq_cons h
  have hkey : takeKey (skipBlanks (k.source ++ ']' :: '\n' :: rest)) =
      some (k, ']' :: '\n' :: rest) := by
    have hskip : skipBlanks (k.source ++ ']' :: '\n' :: rest) =
        k.source ++ ']' :: '\n' :: rest := by
      rw [hsource]
      exact skipBlanks_cons hc.isLineBlank _
    rw [hskip]
    refine takeKey_append h (endsKey_cons (by decide) _) ?_
    · show (']' :: _ : Text).head? ≠ some '.'
      simp
  have hbracket : c ≠ '[' := hc.ne (by decide)
  unfold takeHeader
  split
  · next heq =>
    rw [hsource] at heq
    exact absurd (List.cons.inj (List.cons.inj heq).2).1 hbracket
  · next heq =>
    rw [← (List.cons.inj heq).2]
    exact Option.bind_eq_some_iff.mpr ⟨_, hkey, rfl⟩
  · next hnone => exact absurd rfl (hnone _)

/-- A document without headers. -/
theorem read?_of_takePairs {text : Text} {pairs : List Pair} (hmark : text.head? ≠ some '\uFEFF')
    (h : takePairs (text.length + 1) text = some (pairs, [])) :
    Document.read? text = some { pairs, tables := [] } := by
  have hdrop : dropByteOrderMark text = text := by
    unfold dropByteOrderMark
    split
    · exact absurd rfl hmark
    · rfl
  rw [Document.read?, hdrop]
  exact Option.bind_eq_some_iff.mpr ⟨_, h, rfl⟩

/-- A document with a single table, below a header. -/
theorem read?_header {k : Key} (h : k.WellFormed) {lines : List (Key × StringLiteral)}
    (hlines : ∀ line ∈ lines, line.1.WellFormed ∧ line.2.OnLine) :
    Document.read? ('[' :: (k.source ++ ']' :: '\n' :: linesText lines)) = some
      { pairs := []
        tables := [{ isElement := false
                     key := k
                     pairs := lines.map fun line => (line.1, .string line.2) }] } := by
  have hnone : ∀ n, takeTables n [] = some [] := fun n => by
    cases n <;> rfl
  have htables : takeTables ('[' :: (k.source ++ ']' :: '\n' :: linesText lines)).length
      ('[' :: (k.source ++ ']' :: '\n' :: linesText lines)) = some
        [{ isElement := false
           key := k
           pairs := lines.map fun line => (line.1, .string line.2) }] := by
    have hlt := Nat.lt_succ_of_le (length_le_length_linesText lines)
    rw [List.length_cons, takeTables]
    · exact Option.bind_eq_some_iff.mpr ⟨_, takeHeader_append h _, Option.bind_eq_some_iff.mpr
        ⟨_, takePairs_lines hlines hlt, Option.bind_eq_some_iff.mpr ⟨_, hnone _, rfl⟩⟩⟩
    · exact List.cons_ne_nil _ _
  rw [Document.read?]
  exact Option.bind_eq_some_iff.mpr ⟨([], _), rfl, Option.bind_eq_some_iff.mpr ⟨_, htables, rfl⟩⟩

/-- A document with lines only. -/
theorem read?_lines {lines : List (Key × StringLiteral)}
    (h : ∀ line ∈ lines, line.1.WellFormed ∧ line.2.OnLine) : Document.read? (linesText lines) =
      some { pairs := lines.map fun line => (line.1, .string line.2), tables := [] } := by
  refine read?_of_takePairs (fun hmark => ?_)
    (takePairs_lines h (Nat.lt_succ_of_le (length_le_length_linesText lines)))
  exact absurd (head?_linesText h _ hmark) (by decide)

/-- A document with a single table, between braces. -/
theorem read?_inlineTable {k : Key} (h : k.WellFormed) {pairs : List (Key × StringLiteral)}
    (hne : pairs ≠ []) (hpairs : ∀ pair ∈ pairs, pair.1.WellFormed ∧ pair.2.OnLine) :
    Document.read? (k.source ++ " = ".toList ++
        '\x7b' :: ' ' :: (pairsText pairs ++ ' ' :: '\x7d' :: ['\n'])) = some
      { pairs := [(k, .inlineTable (pairs.map fun pair => (pair.1, .string pair.2)))]
        tables := [] } := by
  obtain ⟨c, more, hsource, hc⟩ := Key.exists_source_eq_cons h
  have hbound : pairs.length <
      (' ' :: (pairsText pairs ++ ' ' :: '\x7d' :: ['\n'])).length := by
    have hle := length_le_length_pairsText pairs
    simp only [List.length_cons, List.length_append]
    omega
  have hassigned := takeAssigned_source h (c := '\x7b') (by decide)
    (' ' :: (pairsText pairs ++ ' ' :: '\x7d' :: ['\n']))
  have hnone : ∀ n, takePairs n [] = some ([], []) := fun n => by
    cases n <;> rfl
  refine read?_of_takePairs ?_ ?_
  · rw [hsource]
    intro hmark
    exact absurd (Option.some.inj hmark ▸ hc)
      (by decide)
  · rw [hsource, List.append_assoc, List.cons_append] at hassigned ⊢
    rw [takePairs_of_startsKey hc]
    exact Option.bind_eq_some_iff.mpr ⟨_, hassigned, Option.bind_eq_some_iff.mpr
      ⟨_, takeValue_inlineTable hne hpairs ['\n'] hbound, Option.bind_eq_some_iff.mpr
        ⟨[], rfl, Option.bind_eq_some_iff.mpr ⟨_, hnone _, rfl⟩⟩⟩⟩

end JuliaReleases.Toml
