import Clearance.Connective
import Clearance.Run
import Clearance.Token

/-! What a reading makes of the parts of a label. A reading builds nothing itself: it hands
every part to an interpretation, in the order of the label, and the interpretation makes its
own nodes and groups. -/
namespace Clearance

/-- Meanings, in a state `σ`, for the parts of a label: `ν` for a finished part and `γ` for a
group that still grows. -/
structure Interpretation (σ ν γ : Type) where
  /-- The label without any byte. -/
  empty : Run σ ν
  /-- An authorization; `live` says that no group around it is decided. -/
  leaf (token : Token) (live : Bool) : Run σ ν
  /-- Begins a group with its first member. -/
  begin (op : Connective) (first : ν) (span : Span) : StateM σ γ
  /-- Whether further members of a group can still matter. -/
  undecided (group : γ) : StateM σ Bool
  /-- Adds a member to a group. -/
  add (group : γ) (member : ν) (span : Span) : StateM σ γ
  /-- Ends a group that covers `span`. -/
  finish (group : γ) (span : Span) : Run σ ν

namespace Interpretation

variable {σ ν γ : Type}

/-- Whether no group around the next member of a group is decided. Within a decided group nothing
is asked. -/
def memberLive (i : Interpretation σ ν γ) (live : Bool) (group : γ) : StateM σ Bool :=
  if live then i.undecided group else pure false

theorem memberLive_of_pure {i : Interpretation σ ν γ} {group : γ} {b : Bool}
    (known : i.undecided group = pure b) (live : Bool) :
    i.memberLive live group = pure (live && b) := by
  cases live with
  | true => exact known
  | false => rfl

end Interpretation

end Clearance
