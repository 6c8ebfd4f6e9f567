import Clearance.Policy

/-! Readings that build nothing: one that only checks a label, and one that shows each of its
authorizations to a visitor. -/
namespace Clearance.Interpretation

variable {σ τ : Type}

def checking (policy : Policy σ) : Interpretation σ Unit Unit where
  empty := pure ()
  leaf token _ := do let _ ← policy.accept token
  begin _ _ _ := pure ()
  undecided _ := pure true
  add _ _ _ := pure ()
  finish _ _ := pure ()

/-- Shows the value of each token that the policy accepts. -/
def visiting (policy : Policy σ) (collect : String → τ → τ) : Interpretation (σ × τ) Unit Unit where
  empty := pure ()
  leaf token _ := do
    let value ← policy.beside.accept token
    modify fun (s, t) => (s, collect value t)
  begin _ _ _ := pure ()
  undecided _ := pure true
  add _ _ _ := pure ()
  finish _ _ := pure ()

end Clearance.Interpretation
