/-! General categories of characters, as far as a policy on text tells them apart. -/
namespace Clearance.Text

/-- What a code point is: a control, assigned to nothing yet, or anything else. -/
inductive Category where
  | control
  | unassigned
  | other
  deriving DecidableEq, Repr

/-- A table of the categories of characters, of some version of Unicode. -/
abbrev Categories := Char → Category

end Clearance.Text
