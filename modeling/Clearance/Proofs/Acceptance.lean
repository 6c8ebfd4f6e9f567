import Clearance.Proofs.Screening

/-! Which labels are read at all. An interpretation that takes whatever it is handed leaves the
decision to the grammar and the nesting limit alone. -/
namespace Clearance

variable {σ ν γ α β : Type}

/-- A run that ends well from every state. -/
def Run.Succeeds (x : Run σ α) : Prop := ∀ s, ∃ a t, x.on s = (.ok a, t)

/-- An interpretation that takes every part it is handed. The other parts cannot fail by their
types. -/
structure Interpretation.NeverFails (i : Interpretation σ ν γ) : Prop where
  empty : Run.Succeeds i.empty
  leaf (token : Token) (live : Bool) : Run.Succeeds (i.leaf token live)
  finish (group : γ) (span : Span) : Run.Succeeds (i.finish group span)

/-- No token is refused, and nothing is written down. -/
def Screen.accepting : Screen Unit := ⟨fun _ => none, fun _ => []⟩

theorem Screen.refusal?_accepting (t : Token) : Screen.accepting.refusal? t = none := rfl

theorem Run.Succeeds.screened {x : Run σ α} (succeeds : Run.Succeeds x) (tokens : List Token) :
    Run.Screened .accepting (fun _ => []) x tokens none := by
  intro s
  rw [Screen.findSome?_of_accepted Screen.refusal?_accepting,
    Screen.notes_of_accepted Screen.refusal?_accepting]
  refine ⟨Run.fault?_eq_none.mpr (succeeds s), ?_⟩
  simp [Screen.accepting]

theorem Interpretation.NeverFails.screens {i : Interpretation σ ν γ} (total : i.NeverFails) :
    i.Screens .accepting fun _ => [] where
  empty := total.empty.screened []
  leaf w offset live := (total.leaf (w.token offset) live).screened _
  begin _ _ _ _ := rfl
  undecided _ _ := rfl
  add _ _ _ _ := rfl
  finish group span := (total.finish group span).screened []

namespace Grammar

theorem Expression.replay_succeeds {i : Interpretation σ ν γ} (total : i.NeverFails)
    (x : Expression) (live : Bool) (offset : Nat) : Run.Succeeds (x.replay i live offset) := by
  intro s
  have screened := x.replay_screened total.screens live offset
  exact Run.fault?_eq_none.mp (screened.fault?_of_accepted Screen.refusal?_accepting s)

/-- An interpretation that takes whatever it is handed fails with what the label does wrong. -/
theorem Outline.fault?_replay {i : Interpretation σ ν γ} (total : i.NeverFails)
    (outline : Outline) (s : σ) : (outline.replay i).fault? s = outline.fault? :=
  (outline.replay_screened total.screens).fault?_of_accepted Screen.refusal?_accepting s

/-- What breaks off never ends well, since nothing comes behind the break. -/
theorem BrokenExpression.replay_ne_ok (i : Interpretation σ ν γ) (x : BrokenExpression)
    (live : Bool) (offset : Nat) (s t : σ) (a : α) :
    (x.replay i live offset).on s ≠ (.ok a, t) := by
  intro ok
  have stays := x.replay_bind i (fun _ : α => (throw (.refused "") : Run σ α)) live offset
  have failed := congrArg (Run.on · s) stays
  simp only [Run.on_bind, ok, Run.on_throw] at failed
  cases failed

theorem Outline.whole_or_empty_of_ok {i : Interpretation σ ν γ} {outline : Outline} {s t : σ}
    {node : ν} (ok : (outline.replay i).on s = (.ok node, t)) :
    outline = .empty ∨ ∃ x, outline = .whole x := by
  cases outline with
  | empty => exact Or.inl rfl
  | whole x => exact Or.inr ⟨x, rfl⟩
  | leftOver x fault =>
    obtain ⟨_, _, _, failed⟩ := Run.on_bind_eq_ok.mp ok
    cases failed
  | broken x => exact absurd ok (x.replay_ne_ok i true 0 s t node)

/-- A label that is read, with whatever interpretation, has a derivation and is handed over as
that. -/
theorem read_ok {i : Interpretation σ ν γ} {limit : UInt32} {label : List UInt8} {s t : σ}
    {node : ν} (ok : (i.read limit label).on s = (.ok node, t)) :
    label = [] ∨ ∃ x : Expression, x.text = label ∧ x.depth ≤ limit.toNat := by
  obtain ⟨outline, fits, replays⟩ := exists_outline limit label
  rw [replays i] at ok
  rcases Outline.whole_or_empty_of_ok ok with rfl | ⟨x, rfl⟩
  · exact Or.inl fits
  · exact Or.inr ⟨x, fits⟩

/-- The text of some derivation: a term, or two or more terms joined by one connective. -/
def IsExpression (label : List UInt8) : Prop := ∃ x : Expression, x.text = label

end Grammar

open Grammar

/-- The labels that are read are the empty one and those that the grammar derives and whose
parentheses nest within the limit. -/
theorem Interpretation.read_succeeds_iff {i : Interpretation σ ν γ} (total : i.NeverFails)
    (limit : UInt32) (label : List UInt8) (s : σ) :
    (∃ node t, (i.read limit label).on s = (.ok node, t)) ↔
      label = [] ∨ IsExpression label ∧ nesting label ≤ limit.toNat := by
  constructor
  · rintro ⟨node, t, ok⟩
    rcases read_ok ok with empty | ⟨x, rfl, within⟩
    · exact Or.inl empty
    · exact Or.inr ⟨⟨x, rfl⟩, by rwa [nesting_text]⟩
  · rintro (rfl | ⟨⟨x, rfl⟩, within⟩)
    · exact total.empty s
    · rw [nesting_text] at within
      rw [read_text x within i]
      exact x.replay_succeeds total true 0 s

/-- Takes down the tokens of a label, whatever they stand for. -/
def Interpretation.collecting : Interpretation (List Token) Unit Unit where
  empty := pure ()
  leaf token _ := modify (· ++ [token])
  begin _ _ _ := pure ()
  undecided _ := pure true
  add _ _ _ := pure ()
  finish _ _ := pure ()

theorem Interpretation.collecting_neverFails : Interpretation.collecting.NeverFails where
  empty s := ⟨(), s, rfl⟩
  leaf token _ s := ⟨(), s ++ [token], rfl⟩
  finish _ _ s := ⟨(), s, rfl⟩

/-- The label `A&("\\"|(B))` nests two deep: it is read with that limit and not with less. -/
theorem Interpretation.read_succeeds_nested :
    let label : List UInt8 :=
      [0x41, 0x26, 0x28, 0x22, 0x5C, 0x5C, 0x22, 0x7C, 0x28, 0x42, 0x29, 0x29]
    Interpretation.collecting.NeverFails ∧
      (∃ node t, (Interpretation.collecting.read 2 label).on [] = (.ok node, t)) ∧
      ¬ ∃ node t, (Interpretation.collecting.read 1 label).on [] = (.ok node, t) := by
  intro label
  have total := Interpretation.collecting_neverFails
  have derived : IsExpression label :=
    ⟨.group .and (.word (.bare [0x41] (by decide) (by decide)))
      (.last (.enclosed (.group .or
        (.word (.quoted [0x5C, 0x5C] (by decide) (.kept (by decide) .nil)))
        (.last (.enclosed (.single (.word (.bare [0x42] (by decide) (by decide))))))))), rfl⟩
  refine ⟨total, (Interpretation.read_succeeds_iff total 2 label []).mpr
    (Or.inr ⟨derived, by decide⟩), fun read => ?_⟩
  rcases (Interpretation.read_succeeds_iff total 1 label []).mp read with empty | ⟨_, within⟩
  · exact absurd empty (List.cons_ne_nil _ _)
  · exact absurd within (by decide)

end Clearance
