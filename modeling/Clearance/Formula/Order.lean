import Clearance.Formula

/-! An order on formulas: values first, then disjunctions, then conjunctions. Values go by
their characters, and groups of one connective by their size and then member by member. -/
namespace Clearance.Formula

def rank : Formula → Nat
  | .atom _ => 0
  | .group .or _ => 1
  | .group .and _ => 2

mutual

protected def compare : Formula → Formula → Ordering
  | .atom v, .atom w => Ord.compare v w
  | .group op ms, .group op' ns =>
    if op = op' then (Ord.compare ms.length ns.length).then (compareMembers ms ns)
    else Ord.compare (rank (.group op ms)) (rank (.group op' ns))
  | a, b => Ord.compare a.rank b.rank

/-- The order at the first place where two lists differ. -/
def compareMembers : List Formula → List Formula → Ordering
  | a :: as, b :: bs => (a.compare b).then (compareMembers as bs)
  | _, _ => .eq

end

instance : Ord Formula := ⟨Formula.compare⟩

end Clearance.Formula
