import JuliaReleases.Proofs.Toml.StringLiteral
import JuliaReleases.Proofs.Version.Spelling
import JuliaReleases.Toml.Reader

/-!
# Keys as they are written, and as they look

A key without points is well formed if the grammar of TOML has it
(`JuliaReleases.Toml.SimpleKey.WellFormed`), and the reader takes no others
(`JuliaReleases.Toml.Document.wellFormed_of_read?`). Of a well-formed key there are two opinions:

* `JuliaReleases.Toml.SimpleKey.name?` – the name that it stands for;
* `JuliaReleases.Toml.SimpleKey.looks` – the names that one sees by cutting it at its points and
  taking marks away, of which `JuliaReleases.Toml.Key.path` consists
  (`JuliaReleases.Toml.Key.path_eq_flatMap_looks`).

They may differ. But what looks like a name that could be written without marks, alone or in front
of something else, is that name (`JuliaReleases.Toml.SimpleKey.name?_of_looks`): the mark at the
front of a key can only be closed by the one at its end.
-/

namespace JuliaReleases.Toml

/-! ### Bare names -/

/-- A name that can be written without marks. -/
def IsBare (name : Text) : Prop :=
  name ≠ [] ∧ ∀ c ∈ name, isBareKeyChar c = true

instance (name : Text) : Decidable (IsBare name) :=
  @instDecidableAnd _ _ inferInstance (List.decidableBAll _ name)

theorem isBlank_eq_false_of_isBareKeyChar {c : Char} (h : isBareKeyChar c = true) :
    isBlank c = false := by
  rcases Bool.or_eq_true_iff.mp h with h | h
  · exact isBlank_eq_false_of_isIdentifierChar h
  · rw [beq_iff_eq.mp h]
    decide

namespace IsBare

variable {name : Text} (h : IsBare name)
include h

theorem notMem {c : Char} (hc : isBareKeyChar c = false) : c ∉ name := fun hmem => by
  rw [h.2 c hmem] at hc
  exact absurd hc (by simp)

theorem trim_eq : Text.trim name = name :=
  Text.trim_of_isWord ⟨h.1, fun c hc => isBlank_eq_false_of_isBareKeyChar (h.2 c hc)⟩

theorem mark_notMem (q : Quote) : q.mark ∉ name :=
  h.notMem (by cases q <;> decide)

end IsBare

/-! ### Looks -/

namespace Key

theorem unquote_marked (q : Quote) (text : Text) :
    unquote (q.mark :: text ++ [q.mark]) = text := by
  cases q <;> simp [unquote, Quote.mark]

/-- A text loses two marks that are alike, or nothing. -/
theorem eq_of_unquote (text : Text) :
    text = unquote text ∨ ∃ q : Quote, text = q.mark :: unquote text ++ [q.mark] := by
  have hlast : ∀ (q : Quote) (rest : Text), rest.getLast? = some q.mark →
      q.mark :: rest = q.mark :: rest.dropLast ++ [q.mark] := fun q rest h => by
    rw [List.cons_append, List.dropLast_append_getLast? _ h]
  unfold unquote
  split
  · split
    · next h => exact .inr ⟨.double, hlast .double _ h⟩
    · exact .inl rfl
  · split
    · next h => exact .inr ⟨.single, hlast .single _ h⟩
    · exact .inl rfl
  · exact .inl rfl

end Key

namespace SimpleKey

/-- **The name that a key stands for.** -/
def name? : SimpleKey → Option Text
  | bare name => some name
  | quoted literal => literal.value?

/-- **The names that one sees in a key**: what stands between its points, without blanks and
marks. -/
def looks (k : SimpleKey) : List Text :=
  (k.source.splitOn '.').map fun part => Key.unquote (Text.trim part)

/-- **A key by the grammar**: a bare name, or a literal on one line. -/
def WellFormed : SimpleKey → Prop
  | bare name => IsBare name
  | quoted literal => literal.OnLine

instance : DecidablePred WellFormed := fun
  | bare name => inferInstanceAs (Decidable (IsBare name))
  | quoted literal => inferInstanceAs (Decidable literal.OnLine)

variable {k : SimpleKey} {name : Text}

theorem looks_ne_nil (k : SimpleKey) : k.looks ≠ [] := by
  simp [looks, List.splitOn_ne_nil]

theorem looks_bare (h : IsBare name) : (bare name).looks = [name] := by
  have hunquote : Key.unquote name = name := by
    rcases Key.eq_of_unquote name with hname | ⟨q, hname⟩
    · exact hname.symm
    · exact absurd (hname ▸ List.mem_append_left _ List.mem_cons_self) (h.mark_notMem q)
  rw [looks, source, List.splitOn_eq_singleton (h.notMem (by decide)), List.map_singleton,
    h.trim_eq, hunquote]

theorem looks_quoted {l : StringLiteral} (h : l.OnLine) (hpoint : '.' ∉ l.body) :
    (quoted l).looks = [l.body] := by
  have hsource : '.' ∉ l.quote.mark :: l.body ++ [l.quote.mark] := by
    cases hq : l.quote <;> simp [Quote.mark, hpoint]
  have htrim : Text.trim (l.quote.mark :: l.body ++ [l.quote.mark]) =
      l.quote.mark :: l.body ++ [l.quote.mark] := by
    refine Text.trim_eq_self (fun c hc => ?_) fun c hc => ?_
    · obtain rfl : l.quote.mark = c := by simpa using hc
      exact l.quote.isBlank_mark
    · rw [List.getLast?_concat] at hc
      exact Option.some.inj hc ▸ l.quote.isBlank_mark
  rw [looks, source, h.source_eq, List.splitOn_eq_singleton hsource, List.map_singleton, htrim,
    Key.unquote_marked]

/-- **What one sees at the front of a key with marks** is no bare name if there is a point in the
key: the mark at the front would have to be closed in front of the point. -/
theorem looks_ne_of_point {l : StringLiteral} (h : l.OnLine) (hpoint : '.' ∈ l.body)
    (hname : IsBare name) (others : List Text) : (quoted l).looks ≠ name :: others := by
  intro hlooks
  obtain ⟨front, rest, hbody, hfront⟩ := List.eq_append_cons_of_mem hpoint
  have hpiece : '.' ∉ l.quote.mark :: front := by
    cases hq : l.quote <;> simp [Quote.mark, hfront]
  have hsource : (quoted l).source = l.quote.mark :: front ++ '.' :: (rest ++ [l.quote.mark]) := by
    rw [source, h.source_eq, hbody]
    simp
  rw [looks, hsource, List.splitOn_append_cons_self, List.splitOn_eq_singleton hpiece,
    List.singleton_append, List.map_cons] at hlooks
  replace hlooks := (List.cons.inj hlooks).1
  obtain ⟨before, after, hbefore, -, htrim⟩ := Text.exists_blanks_trim (l.quote.mark :: front)
  obtain rfl : before = [] := by
    cases before with
    | nil => rfl
    | cons c before =>
      obtain ⟨rfl, -⟩ := List.cons.inj htrim
      exact absurd (hbefore _ List.mem_cons_self) (by simp [l.quote.isBlank_mark])
  rcases Key.eq_of_unquote (Text.trim (l.quote.mark :: front)) with heq | ⟨q, heq⟩
  · obtain ⟨c, more, hcons⟩ := List.exists_cons_of_ne_nil hname.1
    rw [heq, hlooks, hcons] at htrim
    refine hname.mark_notMem l.quote ?_
    rw [hcons, (List.cons.inj htrim).1]
    exact List.mem_cons_self
  · rw [heq, hlooks] at htrim
    obtain ⟨hmark, hclosed⟩ := List.cons.inj htrim
    have hline : StringLiteral.IsLine l.quote false
        (name ++ l.quote.mark :: (after ++ '.' :: rest)) := by
      have hwhole : l.body = name ++ l.quote.mark :: (after ++ '.' :: rest) := by
        rw [hbody, hclosed, hmark]
        simp
      exact hwhole ▸ h.2
    exact StringLiteral.not_isLine_append_mark (hname.notMem (by decide)) hline

/-- **What looks like a bare name**, alone or in front of something else, is one. -/
theorem name?_of_looks (hk : k.WellFormed) (hname : IsBare name) {others : List Text}
    (h : k.looks = name :: others) : others = [] ∧ k.name? = some name := by
  cases k with
  | bare name' =>
    rw [looks_bare hk] at h
    obtain ⟨rfl, rfl⟩ := List.cons.inj h
    exact ⟨rfl, rfl⟩
  | quoted l =>
    by_cases hpoint : '.' ∈ l.body
    · exact absurd h (looks_ne_of_point hk hpoint hname others)
    · rw [looks_quoted hk hpoint] at h
      obtain ⟨hbody, rfl⟩ := List.cons.inj h
      refine ⟨rfl, ?_⟩
      rw [name?, hk.value?_eq (hbody ▸ hname.notMem (by decide)), hbody]

/-- A key without backslashes that stands for a bare name looks like it. -/
theorem looks_of_name? (hk : k.WellFormed) (hname : IsBare name) (h : k.name? = some name)
    (hescape : '\\' ∉ k.source) : k.looks = [name] := by
  cases k with
  | bare name' =>
    rw [looks_bare hk, Option.some.inj h]
  | quoted l =>
    have hbody : '\\' ∉ l.body := fun hmem => hescape <| by
      rw [source, StringLiteral.OnLine.source_eq hk]
      simp [hmem]
    obtain rfl : l.body = name := Option.some.inj ((hk.value?_eq hbody).symm.trans h)
    exact looks_quoted hk (hname.notMem (by decide))

/-- **A key that is what it looks like**: there are no points between its marks, and no escapes. -/
def Plain : SimpleKey → Prop
  | bare _ => True
  | quoted l => '.' ∉ l.body ∧ (l.quote = .double → '\\' ∉ l.body)

instance : DecidablePred Plain := fun
  | bare _ => inferInstanceAs (Decidable True)
  | quoted _ => inferInstanceAs (Decidable (_ ∧ _))

/-- A key looks like its name if and only if it is plain. -/
theorem looks_eq_iff (hk : k.WellFormed) (h : k.name? = some name) :
    k.looks = [name] ↔ k.Plain := by
  cases k with
  | bare name' =>
    obtain rfl : name' = name := Option.some.inj h
    exact iff_of_true (looks_bare hk) trivial
  | quoted l =>
    by_cases hpoint : '.' ∈ l.body
    · refine iff_of_false (fun hlooks => ?_) fun hplain => hplain.1 hpoint
      have hlength := congrArg List.length hlooks
      obtain ⟨front, rest, hbody⟩ := List.append_of_mem hpoint
      have hsource : (quoted l).source =
          l.quote.mark :: front ++ '.' :: (rest ++ [l.quote.mark]) := by
        rw [source, StringLiteral.OnLine.source_eq hk, hbody]
        simp
      rw [looks, hsource, List.splitOn_append_cons_self] at hlength
      have hfront := List.length_pos_iff.mpr (List.splitOn_ne_nil '.' (l.quote.mark :: front))
      have hrest := List.length_pos_iff.mpr (List.splitOn_ne_nil '.' (rest ++ [l.quote.mark]))
      simp only [List.map_append, List.length_append, List.length_map, List.length_singleton]
        at hlength
      omega
    · rw [looks_quoted hk hpoint, List.cons.injEq, and_iff_left rfl]
      rw [Plain, and_iff_right hpoint, ← StringLiteral.OnLine.value?_eq_body_iff hk]
      rw [name?] at h
      rw [h, Option.some.injEq, eq_comm]

end SimpleKey

namespace Key

/-- A key whose parts are all well formed. -/
def WellFormed (k : Key) : Prop :=
  ∀ part ∈ k.first :: k.others, part.WellFormed

variable {k : Key}

/-- A path consists of what one sees in the parts of the key. -/
theorem path_eq_flatMap_looks (k : Key) :
    k.path = (k.first :: k.others).flatMap SimpleKey.looks := by
  obtain ⟨first, others⟩ := k
  rw [path, source]
  induction others generalizing first with
  | nil => simp [SimpleKey.looks]
  | cons second others ih =>
    rw [List.map_cons, List.map_cons, List.intercalate_cons_cons, List.append_assoc,
      List.singleton_append, List.splitOn_append_cons_self, List.map_append, ← List.map_cons,
      ih second, List.flatMap_cons]
    rfl

/-- A path begins with a bare name if and only if the first part of the key looks like it. -/
theorem path_eq_cons_iff (hk : k.WellFormed) {name : Text} (hname : IsBare name)
    {more : List Text} : k.path = name :: more ↔
      k.first.looks = [name] ∧ k.others.flatMap SimpleKey.looks = more := by
  rw [path_eq_flatMap_looks, List.flatMap_cons]
  constructor
  · intro h
    obtain ⟨seen, others, hlooks⟩ := List.exists_cons_of_ne_nil k.first.looks_ne_nil
    rw [hlooks, List.cons_append] at h
    obtain ⟨rfl, hmore⟩ := List.cons.inj h
    obtain ⟨rfl, -⟩ := SimpleKey.name?_of_looks (hk _ List.mem_cons_self) hname hlooks
    exact ⟨hlooks, hmore⟩
  · rintro ⟨hfirst, rfl⟩
    rw [hfirst, List.singleton_append]

end Key

/-! ### Keys of documents -/

/-- **A document by the grammar**, as far as the keys above all headers and in the headers are
concerned. -/
structure Document.WellFormed (d : Document) : Prop where
  pairs : ∀ pair ∈ d.pairs, pair.1.WellFormed
  headers : ∀ table ∈ d.tables, table.key.WellFormed

theorem SimpleKey.wellFormed_of_take {text rest : Text} {k : SimpleKey}
    (h : takeSimpleKey text = some (k, rest)) : k.WellFormed := by
  unfold takeSimpleKey at h
  split at h
  · exact absurd h (by simp)
  · next c more =>
    split_ifs at h with hbare
    · obtain ⟨rfl, -⟩ := Prod.mk.inj (Option.some.inj h)
      refine ⟨?_, fun d hd => List.mem_takeWhile_imp hd⟩
      rw [List.takeWhile_cons_of_pos hbare]
      exact List.cons_ne_nil _ _
    · obtain ⟨⟨l, rest'⟩, htake, hresult⟩ := Option.bind_eq_some_iff.mp h
      dsimp only at hresult
      split_ifs at hresult with hline
      obtain ⟨rfl, -⟩ := Prod.mk.inj (Option.some.inj hresult)
      exact StringLiteral.onLine_of_take htake (by simpa using hline)

theorem wellFormed_of_takeOtherKeys {bound : Nat} {text rest : Text} {ks : List SimpleKey}
    (h : takeOtherKeys bound text = some (ks, rest)) : ∀ k ∈ ks, k.WellFormed := by
  induction bound generalizing text rest ks with
  | zero =>
    obtain ⟨rfl, -⟩ := Prod.mk.inj (Option.some.inj h)
    simp
  | succ bound ih =>
    unfold takeOtherKeys at h
    split at h
    · obtain ⟨⟨k, rest₁⟩, hk, h⟩ := Option.bind_eq_some_iff.mp h
      obtain ⟨⟨ks', rest₂⟩, hks, h⟩ := Option.bind_eq_some_iff.mp h
      obtain ⟨rfl, -⟩ := Prod.mk.inj (Option.some.inj h)
      exact List.forall_mem_cons.mpr ⟨SimpleKey.wellFormed_of_take hk, ih hks⟩
    · obtain ⟨rfl, -⟩ := Prod.mk.inj (Option.some.inj h)
      simp

theorem Key.wellFormed_of_take {text rest : Text} {k : Key} (h : takeKey text = some (k, rest)) :
    k.WellFormed := by
  obtain ⟨⟨first, rest₁⟩, hfirst, h⟩ := Option.bind_eq_some_iff.mp h
  obtain ⟨⟨others, rest₂⟩, hothers, h⟩ := Option.bind_eq_some_iff.mp h
  obtain ⟨rfl, -⟩ := Prod.mk.inj (Option.some.inj h)
  exact List.forall_mem_cons.mpr
    ⟨SimpleKey.wellFormed_of_take hfirst, wellFormed_of_takeOtherKeys hothers⟩

theorem wellFormed_of_takePairs {bound : Nat} {text rest : Text} {pairs : List Pair}
    (h : takePairs bound text = some (pairs, rest)) : ∀ pair ∈ pairs, pair.1.WellFormed := by
  induction bound generalizing text rest pairs with
  | zero =>
    obtain ⟨rfl, -⟩ := Prod.mk.inj (Option.some.inj h)
    simp
  | succ bound ih =>
    unfold takePairs at h
    split at h
    · obtain ⟨rfl, -⟩ := Prod.mk.inj (Option.some.inj h)
      simp
    · obtain ⟨rfl, -⟩ := Prod.mk.inj (Option.some.inj h)
      simp
    · obtain ⟨⟨key, rest₁⟩, hkey, h⟩ := Option.bind_eq_some_iff.mp h
      obtain ⟨⟨value, rest₂⟩, -, h⟩ := Option.bind_eq_some_iff.mp h
      obtain ⟨rest₃, -, h⟩ := Option.bind_eq_some_iff.mp h
      obtain ⟨⟨pairs', rest₄⟩, hpairs, h⟩ := Option.bind_eq_some_iff.mp h
      obtain ⟨rfl, -⟩ := Prod.mk.inj (Option.some.inj h)
      obtain ⟨⟨key', rest₅⟩, hkey', hassigned⟩ := Option.bind_eq_some_iff.mp hkey
      have hkey : key' = key := by
        dsimp only at hassigned
        split at hassigned
        · exact (Prod.mk.inj (Option.some.inj hassigned)).1
        · exact absurd hassigned (by simp)
      exact List.forall_mem_cons.mpr ⟨hkey ▸ Key.wellFormed_of_take hkey', ih hpairs⟩

theorem wellFormed_of_takeHeader {isElement : Bool} {text rest : Text} {key : Key}
    (h : takeHeader text = some (isElement, key, rest)) : key.WellFormed := by
  have hkey : ∃ text rest', takeKey text = some (key, rest') := by
    unfold takeHeader at h
    split at h
    case h_1 | h_2 =>
      obtain ⟨⟨key', rest'⟩, hkey, h⟩ := Option.bind_eq_some_iff.mp h
      dsimp only at h
      split at h
      · obtain ⟨rest'', -, hresult⟩ := Option.map_eq_some_iff.mp h
        obtain ⟨-, rfl, -⟩ := by simpa using hresult
        exact ⟨_, _, hkey⟩
      · exact absurd h (by simp)
    case h_3 => exact absurd h (by simp)
  obtain ⟨text, rest', hkey⟩ := hkey
  exact Key.wellFormed_of_take hkey

theorem wellFormed_of_takeTables {bound : Nat} {text : Text} {tables : List Table}
    (h : takeTables bound text = some tables) : ∀ table ∈ tables, table.key.WellFormed := by
  induction bound generalizing text tables with
  | zero =>
    cases text with
    | nil => simp [← Option.some.inj h]
    | cons c rest => exact absurd h (by simp [takeTables])
  | succ bound ih =>
    cases text with
    | nil => simp [← Option.some.inj h]
    | cons c rest =>
      obtain ⟨⟨isElement, key, rest₁⟩, hheader, h⟩ := Option.bind_eq_some_iff.mp h
      obtain ⟨⟨pairs, rest₂⟩, -, h⟩ := Option.bind_eq_some_iff.mp h
      obtain ⟨tables', htables, h⟩ := Option.bind_eq_some_iff.mp h
      obtain rfl := Option.some.inj h
      exact List.forall_mem_cons.mpr ⟨wellFormed_of_takeHeader hheader, ih htables⟩

/-- **What is read as a document is one by the grammar.** -/
theorem Document.wellFormed_of_read? {text : Text} {d : Document} (h : read? text = some d) :
    d.WellFormed := by
  obtain ⟨⟨pairs, rest⟩, hpairs, h⟩ := Option.bind_eq_some_iff.mp h
  obtain ⟨tables, htables, h⟩ := Option.bind_eq_some_iff.mp h
  obtain rfl := Option.some.inj h
  exact ⟨wellFormed_of_takePairs hpairs, wellFormed_of_takeTables htables⟩

end JuliaReleases.Toml
