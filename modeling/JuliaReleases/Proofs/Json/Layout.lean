import JuliaReleases.Json.Printer
import JuliaReleases.Json.Reading
import JuliaReleases.Proofs.Text.Cutting

/-!
# Layouts

The two ways of printing a JSON value differ in their blanks only. A `JuliaReleases.Json.Layout`
says which blanks stand in front of an item and of a closing bracket, and behind a colon, and
`JuliaReleases.Json.Value.print` prints a value with them. Both printers are cases of this one
(`JuliaReleases.Json.Value.print_compact`, `JuliaReleases.Json.Value.print_indented`), so that what
is said about printed values has to be said once.

What is between two brackets is taken apart from the left: the first item, and what is behind it
(`JuliaReleases.Json.Layout.behind`).
-/

namespace JuliaReleases.Json

/-- The blanks of a printed value. -/
structure Layout where
  /-- What stands in front of an item, or of a closing bracket, at a depth. -/
  lineStart : Nat → Text
  /-- What stands between a colon and a value. -/
  gap : Text
  isBlank_of_mem_lineStart : ∀ {depth : Nat}, ∀ c ∈ lineStart depth, isBlank c = true
  isBlank_of_mem_gap : ∀ c ∈ gap, isBlank c = true

namespace Layout

/-- No blanks. -/
def compact : Layout where
  lineStart _ := []
  gap := []
  isBlank_of_mem_lineStart := by simp
  isBlank_of_mem_gap := by simp

/-- A line for each item. -/
def indented : Layout where
  lineStart := Value.lineStart
  gap := [' ']
  isBlank_of_mem_lineStart := by
    intro depth c hc
    rcases List.mem_cons.mp hc with rfl | hc
    · rfl
    · rw [List.eq_of_mem_replicate hc]
      rfl
  isBlank_of_mem_gap := List.forall_mem_singleton.mpr rfl

variable (l : Layout) (depth : Nat)

/-- The text between two brackets at a depth. -/
def inside : List Text → Text
  | [] => []
  | item :: items =>
    l.lineStart (depth + 1) ++ item ++
      items.flatMap (fun item => ',' :: (l.lineStart (depth + 1) ++ item)) ++ l.lineStart depth

/-- The text behind an item at a depth, if there are some more items, and a text behind the closing
bracket. -/
def behind (closing : Char) (items : List Text) (rest : Text) : Text :=
  items.flatMap (fun item => ',' :: (l.lineStart (depth + 1) ++ item)) ++
    (l.lineStart depth ++ closing :: rest)

variable {l depth}

/-- The items are separated by commas. -/
theorem inside_eq {items : List Text} (hne : items ≠ []) : l.inside depth items =
    [','].intercalate (items.map (l.lineStart (depth + 1) ++ ·)) ++ l.lineStart depth := by
  obtain ⟨item, items, rfl⟩ := List.exists_cons_of_ne_nil hne
  induction items generalizing item with
  | nil => simp [inside]
  | cons item' items ih =>
    rw [List.map_cons, List.map_cons, List.intercalate_cons_cons, List.append_assoc,
      ← List.map_cons, ← ih item' (List.cons_ne_nil _ _)]
    simp [inside]

theorem inside_compact (depth : Nat) (items : List Text) :
    compact.inside depth items = [','].intercalate items := by
  by_cases hne : items = []
  · rw [hne]
    rfl
  · simp [inside_eq hne, compact]

/-- Items on lines of their own are a block. -/
theorem block_eq (opening closing : Char) (depth : Nat) (items : List Text) :
    Value.block opening closing depth items =
      opening :: (indented.inside depth items ++ [closing]) := by
  by_cases hne : items = []
  · rw [hne]
    rfl
  · unfold Value.block
    split
    · exact absurd rfl hne
    · rw [inside_eq hne]
      rfl

theorem inside_cons_append (item : Text) (items : List Text) (closing : Char) (rest : Text) :
    l.inside depth (item :: items) ++ closing :: rest =
      l.lineStart (depth + 1) ++ (item ++ l.behind depth closing items rest) := by
  simp [inside, behind]

theorem behind_nil (closing : Char) (rest : Text) :
    l.behind depth closing [] rest = l.lineStart depth ++ closing :: rest := rfl

theorem behind_cons (closing : Char) (item : Text) (items : List Text) (rest : Text) :
    l.behind depth closing (item :: items) rest =
      ',' :: (l.lineStart (depth + 1) ++ (item ++ l.behind depth closing items rest)) := by
  simp [behind]

/-- There are no more items than characters. -/
theorem length_lt_length_behind (l : Layout) (depth : Nat) (closing : Char) (items : List Text)
    (rest : Text) :
    items.length < (l.behind depth closing items rest).length := by
  induction items with
  | nil =>
    rw [behind_nil, List.length_append, List.length_cons, List.length_nil]
    omega
  | cons item items ih =>
    rw [behind_cons]
    simp only [List.length_cons, List.length_append]
    omega

theorem length_le_length_inside (l : Layout) (depth : Nat) (closing : Char) (items : List Text)
    (rest : Text) :
    items.length ≤ (l.inside depth items ++ closing :: rest).length := by
  cases items with
  | nil => exact Nat.zero_le _
  | cons item items =>
    have hbehind := length_lt_length_behind l depth closing items rest
    rw [inside_cons_append, List.length_append, List.length_append, List.length_cons]
    omega

end Layout

/-! ### Printing with a layout -/

namespace Value

/-- The written form of a value in a layout, at a depth. -/
def print (l : Layout) (depth : Nat) : Value → Text
  | null => "null".toList
  | bool true => "true".toList
  | bool false => "false".toList
  | number n => Decimal.write n
  | text t => writeString t
  | array elements => '[' :: (l.inside depth (printAll (depth + 1) elements) ++ [']'])
  | object members => '\x7b' :: (l.inside depth (printMembers (depth + 1) members) ++ ['\x7d'])
where
  /-- The written forms of some elements. -/
  printAll (depth : Nat) : List Value → List Text
    | [] => []
    | v :: vs => v.print l depth :: printAll depth vs
  /-- The written forms of some members. -/
  printMembers (depth : Nat) : List (Text × Value) → List Text
    | [] => []
    | (key, v) :: members =>
      (writeString key ++ ':' :: (l.gap ++ v.print l depth)) :: printMembers depth members

theorem print_array (l : Layout) (depth : Nat) (elements : List Value) :
    (array elements).print l depth =
      '[' :: (l.inside depth (print.printAll l (depth + 1) elements) ++ [']']) := rfl

theorem print_object (l : Layout) (depth : Nat) (members : List (Text × Value)) :
    (object members).print l depth =
      '\x7b' :: (l.inside depth (print.printMembers l (depth + 1) members) ++ ['\x7d']) := rfl

theorem printAll_eq_map (l : Layout) (depth : Nat) (vs : List Value) :
    print.printAll l depth vs = vs.map (print l depth) := by
  induction vs with
  | nil => rfl
  | cons v vs ih => exact congrArg (v.print l depth :: ·) ih

/-- The text of a member behind the mark that opens its key. -/
def memberText (l : Layout) (depth : Nat) (m : Text × Value) : Text :=
  m.1.flatMap writeChar ++ '"' :: ':' :: (l.gap ++ m.2.print l depth)

theorem printMembers_eq_map (l : Layout) (depth : Nat) (members : List (Text × Value)) :
    print.printMembers l depth members = members.map fun m => '"' :: memberText l depth m := by
  induction members with
  | nil => rfl
  | cons m members ih =>
    have hmember : writeString m.1 ++ ':' :: (l.gap ++ m.2.print l depth) =
        '"' :: memberText l depth m := by
      simp [memberText, writeString]
    exact congrArg₂ List.cons hmember ih

mutual

/-- Without blanks, a value is printed in one line. -/
theorem print_compact (depth : Nat) : ∀ v : Value, v.print .compact depth = v.compact
  | null | bool true | bool false | number _ | text _ => rfl
  | array elements => by
    rw [print_array, Layout.inside_compact, printAll_compact]
    rfl
  | object members => by
    rw [print_object, Layout.inside_compact, printMembers_compact]
    rfl

theorem printAll_compact (depth : Nat) :
    ∀ vs : List Value, print.printAll .compact depth vs = compact.compactAll vs
  | [] => rfl
  | v :: vs => congrArg₂ List.cons (print_compact depth v) (printAll_compact depth vs)

theorem printMembers_compact (depth : Nat) : ∀ members : List (Text × Value),
    print.printMembers .compact depth members = compact.compactMembers members
  | [] => rfl
  | (key, v) :: members =>
    congrArg₂ List.cons (congrArg (writeString key ++ ':' :: ·) (print_compact depth v))
      (printMembers_compact depth members)

end

mutual

/-- With a line for each item, a value is printed over several lines. -/
theorem print_indented (depth : Nat) : ∀ v : Value, v.print .indented depth = v.indented depth
  | null | bool true | bool false | number _ | text _ => rfl
  | array elements => by
    rw [print_array, ← Layout.block_eq, printAll_indented]
    rfl
  | object members => by
    rw [print_object, ← Layout.block_eq, printMembers_indented]
    rfl

theorem printAll_indented (depth : Nat) :
    ∀ vs : List Value, print.printAll .indented depth vs = indented.indentedAll depth vs
  | [] => rfl
  | v :: vs => congrArg₂ List.cons (print_indented depth v) (printAll_indented depth vs)

theorem printMembers_indented (depth : Nat) : ∀ members : List (Text × Value),
    print.printMembers .indented depth members = indented.indentedMembers depth members
  | [] => rfl
  | (key, v) :: members =>
    congrArg₂ List.cons
      (congrArg (writeString key ++ ':' :: ' ' :: ·) (print_indented depth v))
      (printMembers_indented depth members)

end

end Value

end JuliaReleases.Json
