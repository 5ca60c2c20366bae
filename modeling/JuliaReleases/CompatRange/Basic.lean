import JuliaReleases.CompatRange.Clause

/-!
# Compat ranges

A `JuliaReleases.CompatRange` is the range that a project allows for a dependency, kept as the list
of its arms in the range notation. There are three ways to get one:

* `JuliaReleases.CompatRange.any` – every release, for a project that states nothing;
* `JuliaReleases.CompatRange.ofSpecifier` – from a compat specifier, a list of clauses with commas;
* `JuliaReleases.CompatRange.ofComposite` – from a text in the range notation.

Its arms joined by commas are a specifier again (`JuliaReleases.CompatRange.native`), and joined by
`||` they are a range (`JuliaReleases.CompatRange.composite`).
-/

namespace JuliaReleases

/-! ### Clauses -/

namespace Specifier

/-- A clause with the signs `≥` and `≤` spelled out and single spaces between its words. -/
def normalizeClause (clause : Text) : Text :=
  let spelled := clause.flatMap fun c =>
    if c = '≥' then Operator.ge.write else if c = '≤' then Operator.le.write else [c]
  [' '].intercalate (Text.words spelled)

/-- The clauses of a specifier, normalized. A blank specifier has none; otherwise an empty clause
between commas counts. -/
def clauses (specifier : Text) : List Text :=
  if Text.trim specifier = [] then [] else (specifier.splitOn ',').map normalizeClause

/-- The arm of one clause of a specifier; an error repeats both. -/
def armOfClause (specifier clause : Text) : Except RangeError Text :=
  (Clause.toArm clause).mapError fun fault => ⟨specifier, .clause clause fault⟩

/-- The arms that the clauses of a specifier stand for; the first clause at fault is reported. -/
def arms (specifier : Text) : Except RangeError (List Text) :=
  match clauses specifier with
  | [] => .error ⟨specifier, .noClause⟩
  | clauses => clauses.mapM (armOfClause specifier)

end Specifier

/-! ### Compat ranges -/

/-- A range allowed by a project: arms in the range notation, of which one has to hold. -/
structure CompatRange where
  arms : List Text
deriving DecidableEq

namespace CompatRange

/-- The range of every release. -/
def any : CompatRange :=
  ⟨[['*']]⟩

/-- Whether there is no arm at all. -/
def isEmpty (c : CompatRange) : Bool :=
  c.arms.isEmpty

/-- Reads a compat specifier. -/
def ofSpecifier (specifier : Text) : Except RangeError CompatRange :=
  mk <$> Specifier.arms specifier

/-- Passes on an arm that is a range. -/
def validated (arm : Text) : Except RangeError Text :=
  (fun _ => arm) <$> Range.ofText .named arm

/-- Reads a text in the range notation; blank arms are left out. -/
def ofComposite (text : Text) : Except RangeError CompatRange :=
  let arms := ((Text.pieces "||".toList text).map Text.trim).filter fun arm => !arm.isEmpty
  mk <$> arms.mapM validated

/-- The arms as one text of the range notation. -/
def composite (c : CompatRange) : Text :=
  " || ".toList.intercalate c.arms

/-- The arms as a compat specifier. -/
def native (c : CompatRange) : Text :=
  ", ".toList.intercalate c.arms

/-- The range that the arms stand for together. -/
def range (c : CompatRange) : Except RangeError Range :=
  Range.ofText .named c.composite

end CompatRange

end JuliaReleases
