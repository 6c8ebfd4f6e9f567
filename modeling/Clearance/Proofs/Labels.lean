import Clearance.Proofs.Faults
import Clearance.Proofs.Verdict

/-! Labels that are made from bytes. What passes a check is text, so bytes make a label exactly if
they pass, and the label has them. -/
namespace Clearance

variable {σ : Type} {rules : Rules σ} {bytes : List UInt8} {s t : σ}

/-- Bytes are text if they encode characters, as strings do. -/
theorem IsText.isValidUTF8 (text : IsText bytes) : bytes.toByteArray.IsValidUTF8 := by
  obtain ⟨cs, rfl⟩ := text
  exact ⟨cs, rfl⟩

namespace Rules

theorem labelOfBytes_ok (valid : (rules.validate bytes).on s = (.ok (), t)) :
    ∃ text, bytes = Text.Utf8.bytes text ∧
      (rules.labelOfBytes bytes).on s = (.ok { text, rules }, t) := by
  have textual := isText_of_validate (Run.fault?_eq_none.mpr ⟨_, _, valid⟩)
  obtain ⟨text, decoded⟩ := Option.isSome_iff_exists.mp (isText_iff.mp textual)
  refine ⟨text, Text.Utf8.decode?_eq_some.mp decoded, ?_⟩
  rw [labelOfBytes, Run.on_bind, valid, decoded]
  rfl

theorem labelOfBytes_error {fault : Fault}
    (failed : (rules.validate bytes).on s = (.error fault, t)) :
    (rules.labelOfBytes bytes).on s = (.error fault, t) := by
  rw [labelOfBytes, Run.on_bind, failed]

/-- Bytes either pass, and then they are text and make a label that has exactly them, or they fail
the check, and then they make no label for the same reason. That they are no text is never the
reason. -/
theorem labelOfBytes_follows_check (rules : Rules σ) (bytes : List UInt8) (s : σ) :
    (∃ (x : Label σ) (t : σ), (rules.validate bytes).on s = (.ok (), t) ∧
      (rules.labelOfBytes bytes).on s = (.ok x, t) ∧ x.bytes = bytes ∧
      bytes.toByteArray.IsValidUTF8) ∨
    ∃ (fault : Fault) (t : σ), (rules.validate bytes).on s = (.error fault, t) ∧
      (rules.labelOfBytes bytes).on s = (.error fault, t) ∧ ∀ cause, fault ≠ .misuse cause := by
  rcases checked : (rules.validate bytes).on s with ⟨fault | ⟨⟨⟩⟩, t⟩
  · refine Or.inr ⟨fault, t, rfl, labelOfBytes_error checked, ?_⟩
    exact rules.validate_blamesLabel bytes s fault (Run.fault?_eq_some.mpr ⟨t, checked⟩)
  · obtain ⟨text, rfl, made⟩ := labelOfBytes_ok checked
    have textual := isText_of_validate (Run.fault?_eq_none.mpr ⟨_, _, checked⟩)
    exact Or.inl ⟨_, t, rfl, made, rfl, textual.isValidUTF8⟩

end Rules

end Clearance
