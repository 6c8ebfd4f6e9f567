import Clearance.Connective

/-! Labels without their spelling: values joined by connectives. -/
namespace Clearance

inductive Formula where
  | atom (value : String)
  | group (op : Connective) (members : List Formula)
  deriving Repr

namespace Formula

mutual

def decEq : (a b : Formula) → Decidable (a = b)
  | .atom v, .atom w =>
    if h : v = w then isTrue (by rw [h]) else isFalse (by simpa using h)
  | .group op ms, .group op' ns =>
    if h : op = op' then
      match decEqMembers ms ns with
      | isTrue h' => isTrue (by rw [h, h'])
      | isFalse h' => isFalse (by simp [h'])
    else isFalse (by simp [h])
  | .atom _, .group _ _ => isFalse (by simp)
  | .group _ _, .atom _ => isFalse (by simp)

def decEqMembers : (as bs : List Formula) → Decidable (as = bs)
  | [], [] => isTrue rfl
  | a :: as, b :: bs =>
    match decEq a b, decEqMembers as bs with
    | isTrue h, isTrue h' => isTrue (by rw [h, h'])
    | isFalse h, _ => isFalse (by simp [h])
    | _, isFalse h => isFalse (by simp [h])
  | [], _ :: _ => isFalse (by simp)
  | _ :: _, [] => isFalse (by simp)

end

instance : DecidableEq Formula := decEq

end Formula

end Clearance
