import JuliaReleases.CompatRange.Error

/-!
# Clauses of a specifier

A compat specifier is a list of clauses such as `1.6`, `~1.7.2`, `> 1.8` or `1.2 - 1.4`. A clause
becomes one arm of the range notation by `JuliaReleases.Clause.toArm`, in which

* a version without operator gets a **caret**: where the range notation takes `1.2.3` for that very
  version, a specifier takes it for everything compatible with it;
* a blank between `>=`, `>` or `<` and its version disappears;
* a hyphen range has two bare versions as its ends and stays as it is.

Whatever remains with several words, a lone wildcard or an operator `<=` is refused, and so is an
arm that the range notation does not know.
-/

namespace JuliaReleases.Clause

/-- Whether a text is a digit followed by digits and points. -/
def isDottedNumber (text : Text) : Bool :=
  match text with
  | c :: _ => c.isDigit && text.all fun c => c.isDigit || c == '.'
  | [] => false

/-- Whether a text may follow the numbers of a bare version, behind the first `-` or `+`. -/
def isSuffix (text : Text) : Bool :=
  !text.isEmpty && text.all fun c => c.isAlphanum || c == '.' || c == '-' || c == '+'

/-- Whether a text is a bare version: digits and points and perhaps, behind a `-` or `+`, a
suffix. -/
def isBareVersion (text : Text) : Bool :=
  let isMark (c : Char) : Bool := c == '-' || c == '+'
  isDottedNumber (text.takeWhile (!isMark ·)) &&
    match text.dropWhile (!isMark ·) with
    | [] => true
    | _ :: suffix => isSuffix suffix

/-- The operators that one blank may separate from their version. -/
def spacedOperators : List Operator :=
  [.ge, .gt, .lt]

/-- Removes an operator at the front together with the one blank behind it, if a digit follows. -/
def afterSpaced? (clause : Text) (op : Operator) : Option Text :=
  match Text.dropPrefix? (op.write ++ [' ']) clause with
  | some (c :: rest) => if c.isDigit then some (c :: rest) else none
  | _ => none

/-- Joins an operator at the front to its version where one blank separates them. -/
def closeOperator (clause : Text) : Text :=
  match spacedOperators.findSome? fun op => (op, ·) <$> afterSpaced? clause op with
  | some (op, rest) => op.write ++ rest
  | none => clause

/-- The two ends of a hyphen range, or nothing if the clause is none. A hyphen without a blank on
either side belongs to a version. -/
def hyphenEnds (clause : Text) : Except ClauseFault (Option (Text × Text)) :=
  match Text.pieces " - ".toList clause with
  | [_] => .ok none
  | [first, last] =>
    if isBareVersion first && isBareVersion last then .ok (some (first, last))
    else .error .hyphenRange
  | _ => .error .hyphenRange

/-- Puts a caret in front of a bare version. -/
def withCaret (clause : Text) : Text :=
  if isBareVersion clause then Operator.caret.write ++ clause else clause

/-- Passes on an arm that the range notation knows. -/
def validated (arm : Text) : Except ClauseFault Text :=
  match Range.read .named arm with
  | .ok _ => .ok arm
  | .error fault => .error (.range fault)

/-- Whether a part occurs somewhere in a text. -/
def contains (part text : Text) : Bool :=
  (Text.pieces part text).length > 1

/-- **The arm that a clause stands for.** -/
def toArm (clause : Text) : Except ClauseFault Text := do
  let clause := Text.trim clause
  if clause = [] then throw .empty
  let clause := closeOperator clause
  match ← hyphenEnds clause with
  | some (first, last) => validated (first ++ " - ".toList ++ last)
  | none =>
    if clause = ['*'] then throw .wildcard
    if Operator.le.write.isPrefixOf clause then throw .atMost
    if contains "- ".toList clause || contains " -".toList clause then throw .unbalancedHyphen
    if clause.contains ' ' then throw .severalBounds
    validated (withCaret clause)

end JuliaReleases.Clause
