/-!
# Texts, and the ways of cutting them

Everything the library reads and writes is a `JuliaReleases.Text`, a list of characters, so that
readers are recursions on it and their laws are inductions. Strings appear only where text enters
or leaves the program.

Three ways of cutting a text recur in every notation of this library:

* `JuliaReleases.Text.cut` – at the **first** occurrence of a character;
* `JuliaReleases.Text.pieces` – at **every** occurrence of a separator that may be longer than one
  character, from left to right and without overlap. A separator at the front ends an empty piece
  (`JuliaReleases.Text.pieces_append`), and a character that starts none belongs to the first piece
  (`JuliaReleases.Text.pieces_cons`);
* `List.splitOn`, of the standard library – at every occurrence of one character.
-/

namespace JuliaReleases

/-- A text, character by character. -/
abbrev Text := List Char

namespace Text

/-- **The pieces of a text between separators.** The text is scanned from the left; where the
separator starts, a piece ends and the scan goes on behind the separator. There is always one piece
more than there are separators found. -/
def pieces (separator text : Text) : List Text :=
  go 0 text
where
  /-- The pieces of a text whose first `skip` characters belong to a separator. -/
  go (skip : Nat) : Text → List Text
    | [] => [[]]
    | c :: rest =>
      match skip with
      | skip + 1 => go skip rest
      | 0 =>
        if separator.isPrefixOf (c :: rest) then [] :: go (separator.length - 1) rest
        else (go 0 rest).modifyHead (c :: ·)

theorem pieces.go_eq_go_zero (separator : Text) (skip : Nat) (text : Text) :
    pieces.go separator skip text = pieces.go separator 0 (text.drop skip) := by
  induction text generalizing skip with
  | nil => simp [pieces.go]
  | cons c rest ih =>
    cases skip with
    | zero => rfl
    | succ skip => simp only [pieces.go, List.drop_succ_cons, ih skip]

@[simp] theorem pieces_nil (separator : Text) : pieces separator [] = [[]] := rfl

/-- A separator at the front ends an empty piece. -/
theorem pieces_append {separator : Text} (h : separator ≠ []) (rest : Text) :
    pieces separator (separator ++ rest) = [] :: pieces separator rest := by
  obtain ⟨c, more, rfl⟩ := List.exists_cons_of_ne_nil h
  have hpre : (c :: more).isPrefixOf (c :: (more ++ rest)) = true := by
    simp [List.isPrefixOf_iff_prefix]
  simp only [pieces, List.cons_append, pieces.go, hpre, if_true]
  rw [pieces.go_eq_go_zero]
  simp

/-- A character at which no separator starts belongs to the first piece. -/
theorem pieces_cons {separator : Text} {c : Char} {rest : Text}
    (h : ¬ separator <+: c :: rest) :
    pieces separator (c :: rest) = (pieces separator rest).modifyHead (c :: ·) := by
  have hpre : separator.isPrefixOf (c :: rest) = false := by
    rw [← Bool.not_eq_true, List.isPrefixOf_iff_prefix]
    exact h
  simp [pieces, pieces.go, hpre]

/-- Splits a text at the first occurrence of a character, which belongs to neither part. There is
no second part when the character does not occur. -/
def cut (mark : Char) : Text → Text × Option Text
  | [] => ([], none)
  | c :: rest =>
    if c = mark then ([], some rest)
    else
      let (before, after) := cut mark rest
      (c :: before, after)

/-- Takes a prefix off a text that starts with it. -/
def dropPrefix? (start text : Text) : Option Text :=
  if start.isPrefixOf text then some (text.drop start.length) else none

/-- A text between apostrophes, the way messages point at what was read. -/
def quoted (text : Text) : Text :=
  '\'' :: text ++ ['\'']

/-- The text with the letters `A` to `Z` in lower case; every other character stays. -/
def asciiLowercase (text : Text) : Text :=
  text.map Char.toLower

end Text

end JuliaReleases
