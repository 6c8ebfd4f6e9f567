import Clearance.Formula.Order

/-! Normal forms. Order, repetition and nesting of one connective within itself mean nothing,
so a normal group holds no group of its own connective, and its members ascend strictly. -/
namespace Clearance.Formula

/-- What a formula contributes to a group of connective `op`. -/
def membersUnder (op : Connective) : Formula → List Formula
  | .group op' ms => if op' = op then ms else [.group op' ms]
  | f => [f]

def ascending (fs : List Formula) : List Formula :=
  fs.mergeSort fun a b => (a.compare b).isLE

/-- Drops each formula equal to the one before it, where `a` is before the first. -/
def dropRepeatsOf (a : Formula) : List Formula → List Formula
  | [] => []
  | b :: bs => if a.compare b = .eq then dropRepeatsOf a bs else b :: dropRepeatsOf b bs

def dropRepeats : List Formula → List Formula
  | [] => []
  | a :: as => a :: dropRepeatsOf a as

/-- The group of some members, or the member that is left alone in it. -/
def gather (op : Connective) (members : List Formula) : Formula :=
  match dropRepeats (ascending members) with
  | [only] => only
  | members => .group op members

mutual

def normal : Formula → Formula
  | .atom v => .atom v
  | .group op ms => gather op (normalMembers op ms)

def normalMembers (op : Connective) : List Formula → List Formula
  | [] => []
  | m :: ms => m.normal.membersUnder op ++ normalMembers op ms

end

end Clearance.Formula
