import Clearance.Formula
import Clearance.Spelling

/-! Formulas as labels, with no more quotes and parentheses than they need. -/
namespace Clearance.Formula

mutual

def characters : Formula → List Char
  | .atom v => (Spelling.write v).toList
  | .group op ms => joined op ms

/-- The members of a group, each group among them in parentheses. -/
def joined (op : Connective) : List Formula → List Char
  | [] => []
  | [m] => m.enclosed
  | m :: n :: ms => m.enclosed ++ op.symbol :: joined op (n :: ms)

def enclosed : Formula → List Char
  | .atom v => (Spelling.write v).toList
  | .group op ms => '(' :: joined op ms ++ [')']

end

def written (f : Formula) : String := String.ofList f.characters

end Clearance.Formula
