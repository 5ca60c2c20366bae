import Mathlib.Data.List.DropRight
import JuliaReleases.Proofs.Json.Layout
import JuliaReleases.Proofs.Json.Literal

/-!
# Printed values are read back

A reader reads a text as a value (`JuliaReleases.Json.Reads`) if it does so with any blanks in front
of the text and with anything behind it that does not carry it on. It reads a JSON value as a value
of its own type (`JuliaReleases.Json.ReadsPrinted`) if it reads every printed form of it so. This
file goes through the readers: scalars, arrays, objects with arbitrary keys, and records. A reader
that is put together from others reads what they read, so a round trip of a type is a walk along its
reader.

The members of an object are read into a state, one after the other, so a statement on an object is
about a chain of states (`JuliaReleases.Json.Threads`): for an object with arbitrary keys the states
are the members read so far, and for a record they are drafts.
-/

namespace JuliaReleases.Json

variable {α σ : Type} {read : Reader α} {text before rest : Text} {a : α} {v : Value}

/-! ### Blanks -/

theorem skipBlanks_append (hbefore : ∀ c ∈ before, isBlank c = true) (text : Text) :
    skipBlanks (before ++ text) = skipBlanks text :=
  List.dropWhile_append_of_pos hbefore

theorem skipBlanks_cons {c : Char} (hc : isBlank c = false) (rest : Text) :
    skipBlanks (c :: rest) = c :: rest :=
  List.dropWhile_cons_of_neg (by simp [hc])

theorem skipBlanks_skipBlanks (text : Text) : skipBlanks (skipBlanks text) = skipBlanks text :=
  List.dropWhile_idempotent isBlank text

/-- What a value starts with: no blank, and no bracket that closes an array. -/
def Starts (text : Text) : Prop :=
  ∃ c rest, text = c :: rest ∧ isBlank c = false ∧ c ≠ ']'

theorem Starts.skipBlanks_append (h : Starts text) (hbefore : ∀ c ∈ before, isBlank c = true)
    (rest : Text) : skipBlanks (before ++ (text ++ rest)) = text ++ rest := by
  obtain ⟨c, more, rfl, hc, -⟩ := h
  rw [Json.skipBlanks_append hbefore, List.cons_append, skipBlanks_cons hc]

/-! ### Readers and the texts that they read -/

/-- **A reader reads a text as a value**, with blanks in front of it and with a text behind it that
does not carry it on. -/
structure Reads (read : Reader α) (text : Text) (a : α) : Prop where
  starts : Starts text
  read_eq : ∀ before rest, (∀ c ∈ before, isBlank c = true) → Ends rest →
    read (before ++ (text ++ rest)) = .ok (a, rest)

/-- **A reader reads a JSON value as a value of its own**, however it is printed. -/
def ReadsPrinted (read : Reader α) (v : Value) (a : α) : Prop :=
  ∀ (l : Layout) (depth : Nat), Reads read (v.print l depth) a

/-- A reader that passes over blanks first has to be looked at without them. -/
theorem Reads.of_skipBlanks (hskip : ∀ text, read (skipBlanks text) = read text)
    (hstarts : Starts text) (h : ∀ rest, Ends rest → read (text ++ rest) = .ok (a, rest)) :
    Reads read text a where
  starts := hstarts
  read_eq before rest hbefore hrest := by
    rw [← hskip, hstarts.skipBlanks_append hbefore, h rest hrest]

/-! ### Scalars -/

theorem readsPrinted_bool (b : Bool) : ReadsPrinted readBool (.bool b) b := by
  intro l depth
  have hskip : ∀ text, readBool (skipBlanks text) = readBool text := by
    intro text
    rw [readBool, readBool, skipBlanks_skipBlanks]
  cases b with
  | true => exact .of_skipBlanks hskip ⟨'t', "rue".toList, rfl, rfl, by decide⟩ fun _ _ => rfl
  | false => exact .of_skipBlanks hskip ⟨'f', "alse".toList, rfl, rfl, by decide⟩ fun _ _ => rfl

theorem readsPrinted_text (t : Text) : ReadsPrinted readText (.text t) t := by
  intro l depth
  have hskip : ∀ text, readText (skipBlanks text) = readText text := by
    intro text
    rw [readText, readText, skipBlanks_skipBlanks]
  refine .of_skipBlanks hskip ⟨'"', _, rfl, rfl, by decide⟩ fun rest _ => ?_
  show readText (writeString t ++ rest) = _
  rw [writeString, List.cons_append, List.cons_append, List.append_assoc, readText,
    skipBlanks_cons (by decide)]
  exact readString_writeString t rest

theorem isBlank_eq_false_of_isDigit {c : Char} (h : c.isDigit = true) : isBlank c = false := by
  refine Bool.eq_false_iff.mpr fun hblank => ?_
  simp only [isBlank, Bool.or_eq_true, beq_iff_eq] at hblank
  rcases hblank with ((rfl | rfl) | rfl) | rfl <;> exact absurd h (by decide)

theorem readsPrinted_nat {n : Nat} (h : n ≤ maxNumber) : ReadsPrinted readNat (.number n) n := by
  intro l depth
  have hskip : ∀ text, readNat (skipBlanks text) = readNat text := by
    intro text
    rw [readNat, readNat, skipBlanks_skipBlanks]
  obtain ⟨c, digits, hwrite⟩ := List.exists_cons_of_ne_nil (Decimal.write_ne_nil n)
  have hdigit : c.isDigit = true := Decimal.isDigit_of_mem_write (hwrite ▸ List.mem_cons_self)
  have hblank := isBlank_eq_false_of_isDigit hdigit
  refine .of_skipBlanks hskip ⟨c, digits, hwrite, hblank, ?_⟩ fun rest hrest => ?_
  · rintro rfl
    exact absurd hdigit (by decide)
  · have hread := readNumber_write h hrest
    show readNat (Decimal.write n ++ rest) = _
    rw [readNat]
    rw [hwrite, List.cons_append] at hread ⊢
    simp only [skipBlanks_cons hblank, hdigit, or_true, if_true, hread]

section Optional

theorem readOptional_skipBlanks (read : Reader α) (text : Text) :
    readOptional read (skipBlanks text) = readOptional read text := by
  rw [readOptional, readOptional, skipBlanks_skipBlanks]

theorem readsPrinted_null (read : Reader α) : ReadsPrinted (readOptional read) .null none :=
  fun _ _ => .of_skipBlanks (readOptional_skipBlanks read)
    ⟨'n', "ull".toList, rfl, rfl, by decide⟩ fun _ _ => rfl

/-- A value that does not start like `null` is there. -/
theorem Reads.some (h : Reads read text a) (hnull : text.head? ≠ .some 'n') :
    Reads (readOptional read) text (some a) := by
  refine .of_skipBlanks (readOptional_skipBlanks read) h.starts fun rest hrest => ?_
  obtain ⟨c, more, rfl, hblank, hclose⟩ := h.starts
  have hread : read (c :: (more ++ rest)) = .ok (a, rest) := h.read_eq [] rest (by simp) hrest
  rw [List.cons_append, readOptional, skipBlanks_cons hblank]
  split
  · next heq =>
    obtain ⟨rfl, -⟩ := List.cons.inj heq
    exact absurd rfl hnull
  · rw [hread]
    rfl

end Optional

/-! ### Between the items -/

section Items

variable {l : Layout} {depth : Nat} {item : Text} {items : List Text}

theorem Ends.append (h : Ends rest) (hbefore : ∀ c ∈ before, isBlank c = true) :
    Ends (before ++ rest) := by
  cases before with
  | nil => exact h
  | cons c before =>
    intro d hd
    obtain rfl : c = d := Option.some.inj hd
    have hblank := hbefore c List.mem_cons_self
    refine ⟨?_, ?_, ?_, ?_⟩
    · exact Bool.eq_false_iff.mpr fun hdigit => by
        simp [isBlank_eq_false_of_isDigit hdigit] at hblank
    all_goals
      rintro rfl
      exact absurd hblank (by decide)

/-- What is behind an item does not carry it on. -/
theorem ends_behind {closing : Char} (hclosing : closing = ']' ∨ closing = '\x7d')
    (items : List Text) (rest : Text) : Ends (l.behind depth closing items rest) := by
  cases items with
  | nil =>
    rw [Layout.behind_nil]
    refine Ends.append ?_ l.isBlank_of_mem_lineStart
    intro c hc
    obtain rfl : closing = c := Option.some.inj hc
    rcases hclosing with rfl | rfl <;> decide
  | cons item items =>
    rw [Layout.behind_cons]
    intro c hc
    obtain rfl : ',' = c := Option.some.inj hc
    decide

/-- An item is read up to what is behind it. -/
theorem Reads.read_behind {closing : Char} (h : Reads read item a)
    (hclosing : closing = ']' ∨ closing = '\x7d') (items : List Text) (rest : Text) :
    read (item ++ l.behind depth closing items rest) =
      .ok (a, l.behind depth closing items rest) :=
  h.read_eq [] _ (by simp) (ends_behind hclosing items rest)

theorem nextElement_nil (rest : Text) :
    nextElement (l.behind depth ']' [] rest) = .ok (.close rest) := by
  rw [Layout.behind_nil, nextElement, skipBlanks_append l.isBlank_of_mem_lineStart,
    skipBlanks_cons (by decide)]
  rfl

theorem nextElement_cons (hitem : Starts item) (items : List Text) (rest : Text) :
    nextElement (l.behind depth ']' (item :: items) rest) =
      .ok (.item (item ++ l.behind depth ']' items rest)) := by
  rw [Layout.behind_cons, nextElement, skipBlanks_cons (by decide)]
  simp only [hitem.skipBlanks_append l.isBlank_of_mem_lineStart]
  obtain ⟨c, more, rfl, -, hc⟩ := hitem
  rw [List.cons_append]
  split
  · next heq => cases heq
  · next heq => exact absurd (List.cons.inj heq).1 hc
  · rfl

theorem firstElement_cons (hitem : Starts item) (items : List Text) (rest : Text) :
    firstElement (l.inside depth (item :: items) ++ ']' :: rest) =
      .ok (.item (item ++ l.behind depth ']' items rest)) := by
  rw [Layout.inside_cons_append, firstElement, hitem.skipBlanks_append l.isBlank_of_mem_lineStart]
  obtain ⟨c, more, rfl, -, hc⟩ := hitem
  rw [List.cons_append]
  split
  · next heq => cases heq
  · next heq => exact absurd (List.cons.inj heq).1 hc
  · rfl

/-- A member starts with the mark that opens its key. -/
theorem nextMember_nil (rest : Text) :
    nextMember (l.behind depth '\x7d' [] rest) = .ok (.close rest) := by
  rw [Layout.behind_nil, nextMember, skipBlanks_append l.isBlank_of_mem_lineStart,
    skipBlanks_cons (by decide)]
  rfl

theorem nextMember_cons (item : Text) (items : List Text) (rest : Text) :
    nextMember (l.behind depth '\x7d' (('"' :: item) :: items) rest) =
      .ok (.item (item ++ l.behind depth '\x7d' items rest)) := by
  rw [Layout.behind_cons, nextMember, skipBlanks_cons (by decide)]
  simp only [skipBlanks_append l.isBlank_of_mem_lineStart]
  rw [List.cons_append, skipBlanks_cons (by decide)]
  rfl

theorem firstMember_cons (item : Text) (items : List Text) (rest : Text) :
    firstMember (l.inside depth (('"' :: item) :: items) ++ '\x7d' :: rest) =
      .ok (.item (item ++ l.behind depth '\x7d' items rest)) := by
  rw [Layout.inside_cons_append, firstMember, skipBlanks_append l.isBlank_of_mem_lineStart,
    List.cons_append, skipBlanks_cons (by decide)]
  rfl

end Items

/-! ### Arrays -/

section Arrays

variable {l : Layout} {depth : Nat} {item : Text} {items : List Text} {as : List α}

/-- From its first element on, an array is read to its end. -/
theorem readElements_item (h : Reads read item a) (hs : List.Forall₂ (Reads read) items as)
    {bound : Nat} (hbound : items.length < bound) (rest : Text) :
    readElements read bound (.item (item ++ l.behind depth ']' items rest)) =
      .ok (a :: as, rest) := by
  induction hs generalizing item a bound with
  | nil =>
    obtain ⟨bound, rfl⟩ := Nat.exists_eq_add_one.mpr (Nat.zero_lt_of_lt hbound)
    refine bind_eq_ok_iff.mpr ⟨_, h.read_behind (.inl rfl) [] rest, ?_⟩
    refine bind_eq_ok_iff.mpr ⟨_, nextElement_nil rest, ?_⟩
    cases bound <;> rfl
  | @cons item' a' items as h' _ ih =>
    obtain ⟨bound, rfl⟩ := Nat.exists_eq_add_one.mpr (Nat.zero_lt_of_lt hbound)
    refine bind_eq_ok_iff.mpr ⟨_, h.read_behind (.inl rfl) (item' :: items) rest, ?_⟩
    refine bind_eq_ok_iff.mpr ⟨_, nextElement_cons h'.starts items rest, ?_⟩
    exact bind_eq_ok_iff.mpr ⟨_, ih h' (Nat.lt_of_succ_lt_succ hbound), rfl⟩

theorem readArray_skipBlanks (read : Reader α) (text : Text) :
    readArray read (skipBlanks text) = readArray read text := by
  rw [readArray, readArray, skipBlanks_skipBlanks]

/-- **An array is read**, if its elements are. -/
theorem Reads.array (h : List.Forall₂ (Reads read) items as) (l : Layout) (depth : Nat) :
    Reads (readArray read) ('[' :: (l.inside depth items ++ [']'])) as := by
  refine .of_skipBlanks (readArray_skipBlanks read) ⟨'[', _, rfl, rfl, by decide⟩ fun rest _ => ?_
  rw [List.cons_append, readArray, skipBlanks_cons (by decide), List.append_assoc,
    List.singleton_append]
  cases h with
  | nil => rfl
  | @cons item a items as h hs =>
    refine bind_eq_ok_iff.mpr ⟨_, firstElement_cons h.starts items rest, ?_⟩
    have hlength := Layout.length_le_length_inside l depth ']' (item :: items) rest
    exact readElements_item h hs hlength rest

theorem readsPrinted_array {vs : List Value} (h : List.Forall₂ (ReadsPrinted read) vs as) :
    ReadsPrinted (readArray read) (.array vs) as := by
  intro l depth
  rw [Value.print_array, Value.printAll_eq_map]
  refine .array ?_ l depth
  rw [List.forall₂_map_left_iff]
  exact h.imp fun v a hv => hv l (depth + 1)

end Arrays

/-! ### Objects -/

section Objects

variable {l : Layout} {depth : Nat} {member : Text → σ → Reader σ} {state state' : σ}
  {members : List (Text × Value)}

/-- **A chain of states** through which the members of an object lead, each of which is read from
its colon on. -/
inductive Threads (member : Text → σ → Reader σ) : σ → List (Text × Value) → σ → Prop
  | nil (state : σ) : Threads member state [] state
  | cons {state state₁ state' : σ} {key : Text} {v : Value} {members : List (Text × Value)}
      (hread : ∀ (l : Layout) (depth : Nat),
        Reads (member key state) (':' :: (l.gap ++ v.print l depth)) state₁)
      (htail : Threads member state₁ members state') :
      Threads member state ((key, v) :: members) state'

theorem readString_memberText (m : Text × Value) (rest : Text) :
    readString (Value.memberText l depth m ++ rest) =
      .ok (m.1, ':' :: (l.gap ++ m.2.print l depth) ++ rest) := by
  rw [Value.memberText, List.append_assoc, List.cons_append, readString_writeString]

/-- From the key of its first member on, an object is read to its end. -/
theorem readMembers_item {m : Text × Value} (h : Threads member state (m :: members) state')
    {bound : Nat} (hbound : members.length < bound) (rest : Text) :
    readMembers member bound state (.item (Value.memberText l (depth + 1) m ++
      l.behind depth '\x7d' (members.map fun m => '"' :: Value.memberText l (depth + 1) m) rest)) =
        .ok (state', rest) := by
  induction members generalizing m state bound with
  | nil =>
    obtain ⟨bound, rfl⟩ := Nat.exists_eq_add_one.mpr (Nat.zero_lt_of_lt hbound)
    cases h with
    | cons hread htail =>
      refine bind_eq_ok_iff.mpr ⟨_, readString_memberText _ _, ?_⟩
      refine bind_eq_ok_iff.mpr ⟨_, (hread l (depth + 1)).read_behind (.inr rfl) _ rest, ?_⟩
      refine bind_eq_ok_iff.mpr ⟨_, nextMember_nil rest, ?_⟩
      cases htail
      cases bound <;> rfl
  | cons m' members ih =>
    obtain ⟨bound, rfl⟩ := Nat.exists_eq_add_one.mpr (Nat.zero_lt_of_lt hbound)
    cases h with
    | cons hread htail =>
      refine bind_eq_ok_iff.mpr ⟨_, readString_memberText _ _, ?_⟩
      refine bind_eq_ok_iff.mpr ⟨_, (hread l (depth + 1)).read_behind (.inr rfl) _ rest, ?_⟩
      refine bind_eq_ok_iff.mpr ⟨_, nextMember_cons _ _ rest, ?_⟩
      exact ih htail (Nat.lt_of_succ_lt_succ hbound)

/-- The members of an object are read one by one. -/
theorem readMembers_print (h : Threads member state members state') (l : Layout) (depth : Nat)
    (rest : Text) :
    let text := l.inside depth (Value.print.printMembers l (depth + 1) members) ++ '\x7d' :: rest
    (firstMember text >>= readMembers member text.length state) = .ok (state', rest) := by
  rw [Value.printMembers_eq_map]
  intro text
  cases members with
  | nil =>
    cases h
    rfl
  | cons m members =>
    refine bind_eq_ok_iff.mpr ⟨_, firstMember_cons _ _ rest, readMembers_item h ?_ rest⟩
    have hlength := Layout.length_le_length_inside l depth '\x7d'
      ((m :: members).map fun m => '"' :: Value.memberText l (depth + 1) m) rest
    rw [List.length_map] at hlength
    exact hlength

/-! ### Objects with arbitrary keys -/

theorem readEntries_skipBlanks (read : Reader α) (text : Text) :
    readEntries read (skipBlanks text) = readEntries read text := by
  rw [readEntries, readEntries, skipBlanks_skipBlanks]

/-- What is done with what was read. -/
theorem ReadsPrinted.map (h : ReadsPrinted read v a) (f : α → σ) :
    ReadsPrinted (fun text => do
      let (a, rest) ← read text
      return (f a, rest)) v (f a) := by
  intro l depth
  refine ⟨(h l depth).starts, fun before rest hbefore hrest => ?_⟩
  exact bind_eq_ok_iff.mpr ⟨_, (h l depth).read_eq before rest hbefore hrest, rfl⟩

/-- A value is read behind a colon. -/
theorem ReadsPrinted.colon {read member : Reader σ} (h : ReadsPrinted read v state)
    (hmember : ∀ text, member text = skipColon text >>= read) (l : Layout) (depth : Nat) :
    Reads member (':' :: (l.gap ++ v.print l depth)) state := by
  refine ⟨⟨':', _, rfl, rfl, by decide⟩, fun before rest hbefore hrest => ?_⟩
  have hcolon : skipColon (before ++ (':' :: (l.gap ++ v.print l depth) ++ rest)) =
      .ok (l.gap ++ (v.print l depth ++ rest)) := by
    rw [skipColon, skipBlanks_append hbefore, List.cons_append, skipBlanks_cons (by decide),
      List.append_assoc]
    rfl
  rw [hmember, hcolon]
  exact (h l depth).read_eq l.gap rest l.isBlank_of_mem_gap hrest

/-- The values of an object are read in their order. -/
theorem threads_entry {entries : List (Text × α)} {toJson : α → Value}
    (h : ∀ entry ∈ entries, ReadsPrinted read (toJson entry.2) entry.2)
    (before : List (Text × α)) :
    Threads (readEntries.entry read) before (entries.map fun entry => (entry.1, toJson entry.2))
      (before ++ entries) := by
  induction entries generalizing before with
  | nil =>
    rw [List.append_nil]
    exact .nil before
  | cons entry entries ih =>
    obtain ⟨hentry, hentries⟩ := List.forall_mem_cons.mp h
    rw [List.append_cons]
    refine .cons (fun l depth => ?_) (ih hentries (before ++ [entry]))
    exact (hentry.map fun a => before ++ [(entry.1, a)]).colon (fun _ => rfl) l depth

/-- **An object with arbitrary keys is read**, if its values are. -/
theorem readsPrinted_entries {entries : List (Text × α)} {toJson : α → Value}
    (h : ∀ entry ∈ entries, ReadsPrinted read (toJson entry.2) entry.2) :
    ReadsPrinted (readEntries read)
      (.object (entries.map fun entry => (entry.1, toJson entry.2))) entries := by
  intro l depth
  refine .of_skipBlanks (readEntries_skipBlanks read) ⟨'\x7b', _, rfl, rfl, by decide⟩ ?_
  intro rest _
  rw [Value.print_object, List.cons_append, readEntries, skipBlanks_cons (by decide),
    List.append_assoc, List.singleton_append]
  exact readMembers_print (threads_entry h []) l depth rest

/-! ### Records -/

theorem ReadsPrinted.field {name : String} {get : σ → Option α} {set : σ → α → σ}
    (h : ReadsPrinted read v a) (draft : σ) :
    ReadsPrinted ((Field.of name read get set).read draft) v (set draft a) :=
  h.map (set draft)

variable {fields : List (Field σ)} {field : Field σ} {key : Text} {draft draft' : σ}
  {finish? : σ → Option α}

/-- A field that is not set yet is read. -/
theorem ReadsPrinted.readField (h : ReadsPrinted (field.read draft) v draft')
    (hfind : fields.find? (·.name = key) = some field) (hset : field.isSet draft = false)
    (l : Layout) (depth : Nat) :
    Reads (Json.readField fields key draft) (':' :: (l.gap ++ v.print l depth)) draft' := by
  refine h.colon (fun text => ?_) l depth
  rw [Json.readField, hfind]
  simp only [hset, Bool.false_eq_true, if_false]

theorem readRecord_skipBlanks (text : Text) :
    readRecord fields draft finish? (skipBlanks text) = readRecord fields draft finish? text := by
  rw [readRecord, readRecord, skipBlanks_skipBlanks]

/-- **A record is read**, if its fields lead to a draft that is finished. -/
theorem readsPrinted_record (h : Threads (readField fields) draft members draft')
    (hfinish : finish? draft' = some a) :
    ReadsPrinted (readRecord fields draft finish?) (.object members) a := by
  intro l depth
  refine .of_skipBlanks readRecord_skipBlanks ⟨'\x7b', _, rfl, rfl, by decide⟩ fun rest _ => ?_
  rw [Value.print_object, List.cons_append, readRecord, skipBlanks_cons (by decide),
    List.append_assoc, List.singleton_append]
  obtain ⟨ahead, hahead, hmembers⟩ := bind_eq_ok_iff.mp (readMembers_print h l depth rest)
  refine bind_eq_ok_iff.mpr ⟨ahead, hahead, bind_eq_ok_iff.mpr ⟨(draft', rest), hmembers, ?_⟩⟩
  simp only [hfinish]
  rfl

end Objects

/-! ### Documents -/

theorem ReadsPrinted.document (h : ReadsPrinted read v a) (l : Layout) (depth : Nat) :
    readDocument read (v.print l depth) = .ok a := by
  have hread := (h l depth).read_eq [] [] (by simp) (by simp [Ends])
  rw [List.nil_append, List.append_nil] at hread
  exact bind_eq_ok_iff.mpr ⟨_, hread, rfl⟩

end JuliaReleases.Json
