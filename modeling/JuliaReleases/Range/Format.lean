import JuliaReleases.Range.PartialVersion

/-!
# The written form of a range

Arms are written with `||` between them. An arm is either a **hyphen range**, two partial versions
with ` - ` between them, or a list of partial versions, each behind at most one operator, with
blanks between them; an operator may stand apart from its version. `JuliaReleases.Range.read` turns
all of this into plain bounds, once; `JuliaReleases.Range.write` prints the bounds, with `*` for an
arm that has none.
-/

namespace JuliaReleases

/-! ### Printing -/

/-- A relation as it is written. -/
def Relation.write : Relation → Text
  | .eq => Operator.eq.write
  | .gt => Operator.gt.write
  | .ge => Operator.ge.write
  | .lt => Operator.lt.write
  | .le => Operator.le.write

/-- The written form of a bound. -/
def Comparator.write (c : Comparator) : Text :=
  c.relation.write ++ c.version.write

/-- The written form of an arm. -/
def Arm.write (arm : Arm) : Text :=
  match arm.comparators with
  | [] => ['*']
  | comparators => [' '].intercalate (comparators.map Comparator.write)

/-- The written form of a range. -/
def Range.write (r : Range) : Text :=
  " || ".toList.intercalate (r.arms.map Arm.write)

/-! ### Reading -/

/-- Joins every operator that stands alone to the word behind it. -/
def attachOperators : List Text → Except RangeFault (List Text)
  | [] => .ok []
  | word :: words =>
    match Operator.read? word with
    | none => (word :: ·) <$> attachOperators words
    | some op =>
      match words with
      | [] => .error (.operatorAtEnd op)
      | next :: words =>
        match Operator.read? next with
        | some second => .error (.operatorAfter op second)
        | none => ((word ++ next) :: ·) <$> attachOperators words

/-- The bounds of a partial version behind at most one operator. -/
def Comparator.readAll (policy : PrereleasePolicy) (token : Text) :
    Except RangeFault (List Comparator) :=
  match Operator.split token with
  | (none, version) => (·.bounds policy .eq) <$> PartialVersion.read version
  | (some op, version) =>
    if (Operator.split version).1.isSome then .error (.repeatedOperator token)
    else (·.bounds policy op) <$> PartialVersion.read version

/-- Reads an arm. -/
def Arm.read (policy : PrereleasePolicy) (text : Text) : Except RangeFault Arm :=
  let text := Text.trim text
  match Text.pieces " - ".toList text with
  | [_] => do
    let tokens ← attachOperators (Text.words text)
    let comparators ← tokens.mapM (Comparator.readAll policy)
    return ⟨comparators.flatten⟩
  | [first, last] => do
    let first ← PartialVersion.read (Text.trim first)
    let last ← PartialVersion.read (Text.trim last)
    return ⟨first.lowerEnd policy ++ last.atMost⟩
  | _ => .error .hyphenEnds

/-- **Reads a range.** The first fault, from left to right, is the one reported. -/
def Range.read (policy : PrereleasePolicy) (text : Text) : Except RangeFault Range := do
  let arms ← (Text.pieces "||".toList text).mapM (Arm.read policy)
  return { arms, policy }

end JuliaReleases
