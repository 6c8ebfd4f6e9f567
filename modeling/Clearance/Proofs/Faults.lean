import Clearance.Proofs.Screening
import Clearance.Rules

/-! Which faults a reading can come to. Every fault is one of a part that was handed over, or says
what stops the reading of the label; nothing else is ever reported. -/
namespace Clearance

variable {σ ν γ α β : Type} {allowed : Fault → Prop}

/-- From whatever state, all that a run fails with are faults of one kind. -/
def Run.FailsBy (allowed : Fault → Prop) (x : Run σ α) : Prop :=
  ∀ s fault, x.fault? s = some fault → allowed fault

namespace Run

theorem failsBy_pure (a : α) : FailsBy allowed (pure a : Run σ α) := by
  intro s fault failed
  cases failed

theorem failsBy_lift (x : StateM σ α) : FailsBy allowed (liftM x : Run σ α) := by
  intro s fault failed
  cases failed

theorem failsBy_throw {fault : Fault} (kind : allowed fault) :
    FailsBy allowed (throw fault : Run σ α) := by
  intro s fault' failed
  cases failed
  exact kind

theorem FailsBy.bind {x : Run σ α} {f : α → Run σ β} (first : FailsBy allowed x)
    (second : ∀ a, FailsBy allowed (f a)) : FailsBy allowed (x >>= f) := by
  intro s fault failed
  rw [fault?, on_bind] at failed
  rcases run : x.on s with ⟨_ | a, t⟩
  · rw [run] at failed
    cases failed
    exact first s fault (fault?_eq_some.mpr ⟨t, run⟩)
  · rw [run] at failed
    exact second a t fault failed

end Run

/-- An interpretation whose parts all fail with faults of one kind. -/
structure Interpretation.FailsBy (allowed : Fault → Prop) (i : Interpretation σ ν γ) : Prop where
  empty : Run.FailsBy allowed i.empty
  leaf (token : Token) (live : Bool) : Run.FailsBy allowed (i.leaf token live)
  finish (group : γ) (span : Span) : Run.FailsBy allowed (i.finish group span)

namespace Grammar

variable {i : Interpretation σ ν γ}

mutual

theorem Expression.replay_failsBy (fails : i.FailsBy allowed) : ∀ (x : Expression) (live : Bool)
    (offset : Nat), Run.FailsBy allowed (x.replay i live offset)
  | .single t, live, offset => t.replay_failsBy fails live offset
  | .group op first others, live, offset =>
    (first.replay_failsBy fails live offset).bind fun node =>
      (Run.failsBy_lift (i.begin op node _)).bind fun group =>
        (others.replay_failsBy fails live _ group).bind fun group => fails.finish group _

theorem Term.replay_failsBy (fails : i.FailsBy allowed) : ∀ (t : Term) (live : Bool)
    (offset : Nat), Run.FailsBy allowed (t.replay i live offset)
  | .word w, live, offset => fails.leaf (w.token offset) live
  | .enclosed x, live, offset => x.replay_failsBy fails live (offset + 1)

theorem Members.replay_failsBy (fails : i.FailsBy allowed) : ∀ (ms : Members) (live : Bool)
    (offset : Nat) (group : γ), Run.FailsBy allowed (ms.replay i live offset group)
  | .last t, live, offset, group =>
    (Run.failsBy_lift (i.memberLive live group)).bind fun memberLive =>
      (t.replay_failsBy fails memberLive (offset + 1)).bind fun node =>
        Run.failsBy_lift (i.add group node _)
  | .more t others, live, offset, group =>
    (Run.failsBy_lift (i.memberLive live group)).bind fun memberLive =>
      (t.replay_failsBy fails memberLive (offset + 1)).bind fun node =>
        (Run.failsBy_lift (i.add group node _)).bind fun group =>
          others.replay_failsBy fails live _ group

end

mutual

theorem BrokenExpression.replay_failsBy (fails : i.FailsBy allowed) :
    ∀ (x : BrokenExpression), allowed x.fault → ∀ (live : Bool) (offset : Nat),
      Run.FailsBy allowed (x.replay i live offset : Run σ α)
  | .first t, stop, live, offset => t.replay_failsBy fails stop live offset
  | .group op first others, stop, live, offset =>
    (first.replay_failsBy fails live offset).bind fun node =>
      (Run.failsBy_lift (i.begin op node _)).bind fun group =>
        others.replay_failsBy fails stop live _ group

theorem BrokenTerm.replay_failsBy (fails : i.FailsBy allowed) :
    ∀ (t : BrokenTerm), allowed t.fault → ∀ (live : Bool) (offset : Nat),
      Run.FailsBy allowed (t.replay i live offset : Run σ α)
  | .absent _, stop, _, _ => Run.failsBy_throw stop
  | .within x, stop, live, offset => x.replay_failsBy fails stop live (offset + 1)
  | .unclosed x _, stop, live, offset =>
    (x.replay_failsBy fails live (offset + 1)).bind fun _ => Run.failsBy_throw stop

theorem BrokenMembers.replay_failsBy (fails : i.FailsBy allowed) :
    ∀ (ms : BrokenMembers), allowed ms.fault → ∀ (live : Bool) (offset : Nat) (group : γ),
      Run.FailsBy allowed (ms.replay i live offset group : Run σ α)
  | .here t, stop, live, offset, group =>
    (Run.failsBy_lift (i.memberLive live group)).bind fun memberLive =>
      t.replay_failsBy fails stop memberLive (offset + 1)
  | .mixed t _, stop, live, offset, group =>
    ((Members.last t).replay_failsBy fails live offset group).bind fun _ => Run.failsBy_throw stop
  | .later t others, stop, live, offset, group =>
    ((Members.last t).replay_failsBy fails live offset group).bind fun group =>
      others.replay_failsBy fails stop live _ group

end

end Grammar

open Grammar

/-- A reading fails with a fault of one of its parts, or with what stops it. -/
theorem Interpretation.FailsBy.read {i : Interpretation σ ν γ} (fails : i.FailsBy allowed)
    {limit : UInt32} {label : List UInt8}
    (stops : ∀ fault, Obstacle limit label fault → allowed fault) :
    Run.FailsBy allowed (i.read limit label) := by
  obtain ⟨outline, fits, replays⟩ := exists_outline limit label
  rw [replays i]
  cases outline with
  | empty => exact fails.empty
  | whole x => exact x.replay_failsBy fails true 0
  | leftOver x fault =>
    exact (x.replay_failsBy fails true 0).bind fun _ =>
      Run.failsBy_throw (stops fault fits)
  | broken b => exact b.replay_failsBy fails (stops b.fault fits) true 0

/-- Faults of a label, and not of the way it was handed in. -/
def Fault.BlamesLabel (fault : Fault) : Prop := ∀ cause, fault ≠ .misuse cause

theorem Obstacle.blamesLabel {limit : UInt32} {label : List UInt8} {fault : Fault}
    (obstacle : Obstacle limit label fault) : fault.BlamesLabel := by
  cases obstacle <;> exact nofun

/-- A policy only ever refuses. -/
theorem Policy.accept_failsBy (refused : ∀ value, allowed (.refused value)) (policy : Policy σ)
    (token : Token) : Run.FailsBy allowed (policy.accept token) := by
  have decoded : Run.FailsBy allowed (liftM token.value : Run σ String) := by
    intro s fault failed
    rw [Run.fault?, Run.on_liftExcept, Token.value] at failed
    cases text : Text.Utf8.decode? token.content with
    | some value =>
      rw [text] at failed
      cases failed
    | none =>
      rw [text] at failed
      cases failed
      exact refused _
  refine decoded.bind fun value => (Run.failsBy_lift _).bind fun accepted => ?_
  cases accepted with
  | true => exact Run.failsBy_pure value
  | false => exact Run.failsBy_throw (refused value)

namespace Interpretation

/-- Of its own accord a reading that checks, shows or builds only refuses tokens. -/
theorem checking_failsBy (refused : ∀ value, allowed (.refused value)) (policy : Policy σ) :
    (checking policy).FailsBy allowed where
  empty := Run.failsBy_pure ()
  leaf token _ := (policy.accept_failsBy refused token).bind fun _ => Run.failsBy_pure ()
  finish _ _ := Run.failsBy_pure ()

theorem visiting_failsBy {τ : Type} (refused : ∀ value, allowed (.refused value))
    (policy : Policy σ) (collect : String → τ → τ) :
    (visiting policy collect).FailsBy allowed where
  empty := Run.failsBy_pure ()
  leaf token _ := (policy.beside.accept_failsBy refused token).bind fun _ => Run.failsBy_lift _
  finish _ _ := Run.failsBy_pure ()

theorem building_failsBy (refused : ∀ value, allowed (.refused value)) (policy : Policy σ) :
    (building policy).FailsBy allowed where
  empty := Run.failsBy_pure Tree.empty
  leaf token _ := (policy.accept_failsBy refused token).bind fun _ => Run.failsBy_pure _
  finish _ _ := Run.failsBy_pure _

end Interpretation

/-- A check never complains of how a label was handed in. -/
theorem Rules.validate_blamesLabel (rules : Rules σ) (label : List UInt8) :
    Run.FailsBy Fault.BlamesLabel (rules.validate label) :=
  (Interpretation.checking_failsBy (fun _ => nofun) rules.policy).read fun _ =>
    Obstacle.blamesLabel

end Clearance
