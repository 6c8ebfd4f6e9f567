import Clearance.Fault

/-! Steps in a state that may fail. A failure leaves the state as it was when it came, so
what has been asked and written down before it is not lost. -/
namespace Clearance

abbrev Run (σ : Type) := ExceptT Fault (StateM σ)

namespace Run

variable {σ α β : Type}

/-- The outcome of a run from a state, and the state behind it. -/
def on (x : Run σ α) (s : σ) : Except Fault α × σ := x.run.run s

@[simp] theorem on_pure (a : α) (s : σ) : on (pure a : Run σ α) s = (.ok a, s) := rfl

@[simp] theorem on_throw (f : Fault) (s : σ) : on (throw f : Run σ α) s = (.error f, s) := rfl

theorem on_bind (x : Run σ α) (f : α → Run σ β) (s : σ) :
    on (x >>= f) s =
      match on x s with
      | (.ok a, t) => on (f a) t
      | (.error e, t) => (.error e, t) := by
  simp only [on, ExceptT.run_bind, StateT.run_bind]
  generalize x.run.run s = r
  obtain ⟨_ | _, _⟩ := r <;> rfl

theorem on_bind_eq_ok {x : Run σ α} {f : α → Run σ β} {s u : σ} {b : β} :
    on (x >>= f) s = (.ok b, u) ↔ ∃ a t, on x s = (.ok a, t) ∧ on (f a) t = (.ok b, u) := by
  rw [on_bind]
  rcases on x s with ⟨_ | a, t⟩
  · simp
  · constructor
    · exact fun ends => ⟨a, t, rfl, ends⟩
    · rintro ⟨_, _, ⟨⟩, ends⟩
      exact ends

theorem on_map (g : α → β) (x : Run σ α) (s : σ) :
    on (g <$> x) s = ((on x s).1.map g, (on x s).2) := by
  rw [map_eq_pure_bind, on_bind]
  generalize on x s = r
  obtain ⟨_ | _, _⟩ := r <;> rfl

@[simp] theorem on_lift (x : StateM σ α) (s : σ) :
    on (liftM x : Run σ α) s = (.ok (x s).1, (x s).2) := rfl

@[simp] theorem on_liftExcept (r : Except Fault α) (s : σ) :
    on (liftM r : Run σ α) s = (r, s) := by
  cases r <;> rfl

end Run

end Clearance
