import Clearance.Interpretation
import Clearance.Text.Category

/-! Content policies: which authorizations a label may mention. Every token of a label is put
to the policy, whether the label needs it or not. -/
namespace Clearance

/-- Answers, in a state, whether a value of a charset is allowed. -/
abbrev Policy (σ : Type) := String → Charset → StateM σ Bool

/-- Bare values are all allowed, and other values if each character is assigned, no control and not
the replacement character. -/
def isOrdinary (categories : Text.Categories) (value : String) : Charset → Bool
  | .basic => true
  | .any => value.toList.all fun c => c != Text.Utf8.replacement && categories c == .other

namespace Policy

variable {σ τ : Type}

def standard (categories : Text.Categories) : Policy σ := fun value charset =>
  pure (isOrdinary categories value charset)

/-- The same policy beside a state that it does not touch. -/
def beside (policy : Policy σ) : Policy (σ × τ) := fun value charset (s, t) =>
  let (allowed, s) := policy value charset s
  (allowed, (s, t))

/-- The value if it is allowed. -/
def check (policy : Policy σ) (value : String) (charset : Charset) : Run σ String := do
  if ← policy value charset then return value else throw (.refused value)

/-- The value of a token if it is allowed. -/
def accept (policy : Policy σ) (token : Token) : Run σ String := do
  policy.check (← token.value) token.charset

end Policy

end Clearance
