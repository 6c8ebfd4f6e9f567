import Clearance.Interpretation.Descent
import Clearance.Survey
import Clearance.Text.Assigned
import Clearance.Tree

/-! The rules that labels are read by: how deep parentheses may nest, and a content policy. -/
namespace Clearance

structure Rules (σ : Type) where
  limit : UInt32 := 512
  /-- A policy to ask in place of the standard one. -/
  policy? : Option (Policy σ) := none
  /-- The table that the standard policy goes by. -/
  categories : Text.Categories := Text.categories

namespace Rules

variable {σ τ ν γ : Type}

def policy (rules : Rules σ) : Policy σ := rules.policy?.getD (.standard rules.categories)

def read (rules : Rules σ) (i : Interpretation σ ν γ) (label : List UInt8) : Run σ ν :=
  i.read rules.limit label

/-- Fails unless the label is well formed and each of its authorizations allowed. -/
def validate (rules : Rules σ) (label : List UInt8) : Run σ Unit :=
  rules.read (.checking rules.policy) label

/-- Shows each authorization of a label to a visitor, up to the first fault. -/
def visit (rules : Rules σ) (label : List UInt8) (collect : String → τ → τ) : Run (σ × τ) Unit :=
  (Interpretation.visiting rules.policy collect).read rules.limit label

def parse (rules : Rules σ) (label : List UInt8) : Run σ Tree :=
  rules.read (.building rules.policy) label

/-- The label of the normal form. -/
def normalize (rules : Rules σ) (label : List UInt8) : Run σ String := do
  return (← rules.parse label).normalized

/-- The rules in a line. -/
def describe (rules : Rules σ) : String :=
  "AccessParser \x7b max_nesting_depth: " ++ toString rules.limit.toNat ++ ", validator: " ++
    (if rules.policy?.isSome then "Custom(..)" else "DefaultValidator") ++ " \x7d"

end Rules

end Clearance
