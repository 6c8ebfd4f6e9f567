/-! The two connectives that join the members of a group, and what they do to truth values. -/
namespace Clearance

inductive Connective where
  | and
  | or
  deriving DecidableEq, Repr

namespace Connective

def ofByte? (b : UInt8) : Option Connective :=
  if b = 0x26 then some .and else if b = 0x7C then some .or else none

def byte : Connective → UInt8
  | .and => 0x26
  | .or => 0x7C

def symbol : Connective → Char
  | .and => '&'
  | .or => '|'

def other : Connective → Connective
  | .and => .or
  | .or => .and

/-- The value of no members. -/
def unit : Connective → Bool
  | .and => true
  | .or => false

def join : Connective → Bool → Bool → Bool
  | .and, a, b => a && b
  | .or, a, b => a || b

/-- Whether members that have come to `a` leave the rest a say. -/
def undecided : Connective → Bool → Bool
  | .and, a => a
  | .or, a => !a

theorem join_assoc (op : Connective) (a b c : Bool) :
    op.join (op.join a b) c = op.join a (op.join b c) := by
  cases op
  · exact Bool.and_assoc a b c
  · exact Bool.or_assoc a b c

theorem unit_join (op : Connective) (a : Bool) : op.join op.unit a = a := by
  cases op <;> rfl

theorem join_unit (op : Connective) (a : Bool) : op.join a op.unit = a := by
  cases op <;> cases a <;> rfl

theorem undecided_unit (op : Connective) : op.undecided op.unit = true := by
  cases op <;> rfl

theorem ofByte?_eq_some {b : UInt8} {op : Connective} : ofByte? b = some op ↔ b = op.byte := by
  cases op <;> grind [ofByte?, byte]

theorem byte_injective {op op' : Connective} (same : op.byte = op'.byte) : op = op' := by
  cases op <;> cases op' <;> first | rfl | cases same

end Connective

end Clearance
