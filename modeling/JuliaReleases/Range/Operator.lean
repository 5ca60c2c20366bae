import JuliaReleases.Text.Basic

/-!
# Range operators

The seven operators that may stand in front of a version in a range. `JuliaReleases.Operator.split`
takes one off the front of a text, the longest that fits, and `JuliaReleases.Operator.read?`
recognises a text that is an operator and nothing more.
-/

namespace JuliaReleases

/-- An operator of the range notation. -/
inductive Operator where
  /-- At least, `>=`. -/
  | ge
  /-- At most, `<=`. -/
  | le
  /-- Greater than, `>`. -/
  | gt
  /-- Less than, `<`. -/
  | lt
  /-- Equal, `=`; what no operator means, too. -/
  | eq
  /-- Compatible with, `^`: the first number that is not zero stays. -/
  | caret
  /-- Approximately, `~`: major and minor number stay. -/
  | tilde
deriving DecidableEq

namespace Operator

/-- All operators; those of two characters come before the ones they start with. -/
def all : List Operator :=
  [.ge, .le, .gt, .lt, .eq, .caret, .tilde]

/-- The operator as it is written. -/
def write : Operator → Text
  | .ge => ['>', '=']
  | .le => ['<', '=']
  | .gt => ['>']
  | .lt => ['<']
  | .eq => ['=']
  | .caret => ['^']
  | .tilde => ['~']

/-- The operator that a text is, if it is one. -/
def read? (text : Text) : Option Operator :=
  all.find? (·.write = text)

/-- The longest operator at the front of a text, and what follows it. -/
def split (text : Text) : Option Operator × Text :=
  match all.find? (·.write.isPrefixOf text) with
  | some op => (some op, text.drop op.write.length)
  | none => (none, text)

end Operator

end JuliaReleases
