import Clearance.Proofs.Trees

/-! Policies whose answers depend on the questions alone. Whether such a policy lets a label pass
is a matter of its words, whatever state it is in. -/
namespace Clearance

variable {σ α β : Type}

/-- A policy whose answers depend on the questions alone, whatever it does to its state. -/
def Policy.Steady (policy : Policy σ) (answer : String → Charset → Bool) : Prop :=
  ∀ value charset s, (policy value charset s).1 = answer value charset

theorem Policy.standard_steady (categories : Text.Categories) :
    (standard categories : Policy σ).Steady (isOrdinary categories) :=
  fun _ _ _ => rfl

/-- A run that gives one result from every state. -/
def Run.Yields (x : Run σ α) (a : α) : Prop := ∀ s, ∃ t, x.on s = (.ok a, t)

theorem Run.yields_pure (a : α) : Run.Yields (pure a : Run σ α) a := by
  intro s
  exact ⟨s, rfl⟩

theorem Run.Yields.bind {x : Run σ α} {f : α → Run σ β} {a : α} {b : β}
    (first : Run.Yields x a) (second : Run.Yields (f a) b) : Run.Yields (x >>= f) b := by
  intro s
  obtain ⟨t, hx⟩ := first s
  obtain ⟨u, hf⟩ := second t
  exact ⟨u, by rw [Run.on_bind, hx]; exact hf⟩

namespace Grammar

variable {policy : Policy σ} {answer : String → Charset → Bool}

namespace Word

/-- A word that stands for text and whose value a policy with these answers allows. -/
structure Allowed (answer : String → Charset → Bool) (w : Word) : Prop where
  text : w.value? = some w.value
  allowed : answer w.value w.charset = true

theorem allowed_of_value {w : Word} {v : String} (text : w.value? = some v)
    (allowed : answer v w.charset = true) : w.Allowed answer := by
  have value : w.value = v := by rw [Word.value, text]; rfl
  exact ⟨by rw [value, text], by rw [value, allowed]⟩

theorem allowed_spell {v : String} (nonempty : v ≠ "")
    (allowed : answer v (spell v nonempty).charset = true) : (spell v nonempty).Allowed answer :=
  allowed_of_value (value?_spell v nonempty) allowed

theorem allowed_of_audit (steady : policy.Steady answer) {w : Word} {s t : σ}
    (passed : (w.audit policy).on s = (.ok (), t)) : w.Allowed answer := by
  have text := value?_of_audit passed
  refine ⟨text, ?_⟩
  rw [audit, accept_of_value text, Policy.check, bind_assoc, Run.on_bind, Run.on_lift,
    steady] at passed
  cases allowed : answer w.value w.charset with
  | true => rfl
  | false =>
    simp only [allowed] at passed
    cases passed

theorem Allowed.accept_yields (steady : policy.Steady answer) {w : Word}
    (allowed : w.Allowed answer) (offset : Nat) :
    Run.Yields (policy.accept (w.token offset)) w.value := by
  intro s
  refine ⟨(policy w.value w.charset s).2, ?_⟩
  rw [accept_of_value allowed.text, Policy.check, Run.on_bind, Run.on_lift, steady,
    allowed.allowed]
  rfl

end Word

theorem allowed_of_audit (steady : policy.Steady answer) {ws : List Word} {s t : σ}
    (passed : (audit policy ws).on s = (.ok (), t)) : ∀ w ∈ ws, w.Allowed answer := by
  induction ws generalizing s with
  | nil =>
    intro w member
    cases member
  | cons w ws ih =>
    obtain ⟨r, first, rest⟩ := audit_cons_ok passed
    exact List.forall_mem_cons.mpr ⟨Word.allowed_of_audit steady first, ih rest⟩

theorem audit_yields (steady : policy.Steady answer) {ws : List Word}
    (allowed : ∀ w ∈ ws, w.Allowed answer) : Run.Yields (audit policy ws) () := by
  induction ws with
  | nil => exact Run.yields_pure ()
  | cons w ws ih =>
    obtain ⟨first, rest⟩ := List.forall_mem_cons.mp allowed
    exact ((first.accept_yields steady 0).bind (Run.yields_pure ())).bind (ih rest)

end Grammar

open Grammar

namespace Rules

variable {rules : Rules σ} {answer : String → Charset → Bool} {x : Expression}

theorem validate_yields (steady : rules.policy.Steady answer)
    (within : x.depth ≤ rules.limit.toNat) (allowed : ∀ w ∈ x.words, w.Allowed answer) :
    Run.Yields (rules.validate x.text) () := by
  rw [rules.validate_text within]
  exact audit_yields steady allowed

theorem parse_yields (steady : rules.policy.Steady answer)
    (within : x.depth ≤ rules.limit.toNat) (allowed : ∀ w ∈ x.words, w.Allowed answer) :
    Run.Yields (rules.parse x.text) (x.tree 0) := by
  rw [rules.parse_text within, map_eq_pure_bind]
  exact (audit_yields steady allowed).bind (Run.yields_pure _)

end Rules

end Clearance
