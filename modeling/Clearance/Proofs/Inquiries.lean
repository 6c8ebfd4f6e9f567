import Clearance.Gate
import Clearance.Proofs.Reading

/-! Decisions that write down what they ask. A gate asks its policy and looks authorizations up,
both through a state it does not know. Here each inquiry is written down with its answer, beside
that state, and nothing else about a decision changes. -/
namespace Clearance

variable {σ τ ν γ α β : Type}

/-- A question to the policy, or a lookup, with the answer to it. -/
inductive Inquiry where
  | question (value : String) (charset : Charset) (allowed : Bool)
  | lookup (value : String) (body : List UInt8) (held : Bool)
  deriving DecidableEq, Repr

/-- What has been asked, in that order. -/
abbrev Log := List Inquiry

/-- The same policy, which writes down its questions. -/
def Policy.noted (policy : Policy σ) : Policy (σ × Log) := fun value charset (s, log) =>
  let (allowed, s) := policy value charset s
  (allowed, (s, log ++ [.question value charset allowed]))

/-- The same lookups, which are written down. -/
def Lookup.noted (lookup : Lookup (σ × Log)) : Lookup (σ × Log) := fun value body s =>
  let (held, (s, log)) := lookup value body s
  (held, (s, log ++ [.lookup value body held]))

/-- The same authority beside a state that it does not touch. -/
def Authority.beside (ask : Authority σ) : Authority (σ × τ) := fun value (s, t) =>
  let (held, s) := ask value s
  (held, (s, t))

def Grants.beside : Grants σ → Grants (σ × τ)
  | .sets all => .sets all
  | .authority ask => .authority ask.beside

namespace Gate

/-- Decides a label from its text, and writes down what it asks. -/
def decideNoting (gate : Gate σ) (label : List UInt8) : Run (σ × Log) Bool :=
  gate.grants.beside.decide fun lookup =>
    (Interpretation.deciding gate.rules.policy.noted lookup.noted).read gate.rules.limit label

/-- Decides a label from its tree, and writes down what it asks. -/
def decideTreeNoting (gate : Gate σ) (label : List UInt8) (tree : Tree) : Run (σ × Log) Bool :=
  gate.grants.beside.decide fun lookup =>
    tree.decide gate.rules.policy.noted lookup.noted label true

def decideLabelNoting (gate : Gate σ) (x : Label σ) : Run (σ × Log) Bool :=
  match x.kept? with
  | some kept => gate.decideTreeNoting x.bytes kept.tree
  | none => gate.decideNoting x.bytes

end Gate

/-- A step that does what another does, and more beside its state. -/
def StepCovers (x : StateM (σ × τ) α) (y : StateM σ α) : Prop :=
  ∀ s t, ∃ u, x (s, t) = ((y s).1, ((y s).2, u))

/-- Lookups that answer as others do. -/
def Lookup.Covers (lookup : Lookup (σ × τ)) (plain : Lookup σ) : Prop :=
  ∀ value body, StepCovers (lookup value body) (plain value body)

/-- A run that does what another does, and more beside its state. -/
def Run.Covers (x : Run (σ × τ) α) (y : Run σ α) : Prop :=
  ∀ s t, ∃ u, x.on (s, t) = ((y.on s).1, ((y.on s).2, u))

namespace Run

theorem covers_pure (a : α) : Covers (pure a : Run (σ × τ) α) (pure a : Run σ α) := by
  intro s t
  exact ⟨t, rfl⟩

theorem covers_throw (fault : Fault) :
    Covers (throw fault : Run (σ × τ) α) (throw fault : Run σ α) := by
  intro s t
  exact ⟨t, rfl⟩

theorem covers_lift {x : StateM (σ × τ) α} {y : StateM σ α} (step : StepCovers x y) :
    Covers (liftM x : Run (σ × τ) α) (liftM y : Run σ α) := by
  intro s t
  obtain ⟨u, hx⟩ := step s t
  exact ⟨u, by rw [on_lift, on_lift, hx]⟩

theorem covers_liftExcept (r : Except Fault α) :
    Covers (liftM r : Run (σ × τ) α) (liftM r : Run σ α) := by
  intro s t
  exact ⟨t, by rw [on_liftExcept, on_liftExcept]⟩

theorem Covers.bind {x : Run (σ × τ) α} {y : Run σ α} {f : α → Run (σ × τ) β} {g : α → Run σ β}
    (first : Run.Covers x y) (second : ∀ a, Run.Covers (f a) (g a)) :
    Run.Covers (x >>= f) (y >>= g) := by
  intro s t
  obtain ⟨u, hx⟩ := first s t
  rw [on_bind, on_bind, hx]
  generalize y.on s = outcome
  obtain ⟨result, r⟩ := outcome
  cases result with
  | error fault => exact ⟨u, rfl⟩
  | ok a => exact second a r u

end Run

/-- An interpretation each part of which does what that of another does. -/
structure Interpretation.Covers (i : Interpretation (σ × τ) ν γ) (j : Interpretation σ ν γ) :
    Prop where
  empty : Run.Covers i.empty j.empty
  leaf (token : Token) (live : Bool) : Run.Covers (i.leaf token live) (j.leaf token live)
  begin (op : Connective) (first : ν) (span : Span) :
    StepCovers (i.begin op first span) (j.begin op first span)
  undecided (group : γ) : StepCovers (i.undecided group) (j.undecided group)
  add (group : γ) (member : ν) (span : Span) :
    StepCovers (i.add group member span) (j.add group member span)
  finish (group : γ) (span : Span) : Run.Covers (i.finish group span) (j.finish group span)

theorem Interpretation.Covers.memberLive {i : Interpretation (σ × τ) ν γ}
    {j : Interpretation σ ν γ} (covers : i.Covers j) (live : Bool) (group : γ) :
    StepCovers (i.memberLive live group) (j.memberLive live group) := by
  cases live with
  | true => exact covers.undecided group
  | false => exact fun _ t => ⟨t, rfl⟩

namespace Grammar

variable {i : Interpretation (σ × τ) ν γ} {j : Interpretation σ ν γ}

mutual

theorem Expression.replay_covers (covers : i.Covers j) : ∀ (x : Expression) (live : Bool)
    (offset : Nat), Run.Covers (x.replay i live offset) (x.replay j live offset)
  | .single t, live, offset => t.replay_covers covers live offset
  | .group op first others, live, offset =>
    (first.replay_covers covers live offset).bind fun node =>
      (Run.covers_lift (covers.begin op node _)).bind fun group =>
        (others.replay_covers covers live _ group).bind fun group => covers.finish group _

theorem Term.replay_covers (covers : i.Covers j) : ∀ (t : Term) (live : Bool)
    (offset : Nat), Run.Covers (t.replay i live offset) (t.replay j live offset)
  | .word w, live, offset => covers.leaf (w.token offset) live
  | .enclosed x, live, offset => x.replay_covers covers live (offset + 1)

theorem Members.replay_covers (covers : i.Covers j) : ∀ (ms : Members) (live : Bool)
    (offset : Nat) (group : γ),
      Run.Covers (ms.replay i live offset group) (ms.replay j live offset group)
  | .last t, live, offset, group =>
    (Run.covers_lift (covers.memberLive live group)).bind fun memberLive =>
      (t.replay_covers covers memberLive (offset + 1)).bind fun node =>
        Run.covers_lift (covers.add group node _)
  | .more t others, live, offset, group =>
    (Run.covers_lift (covers.memberLive live group)).bind fun memberLive =>
      (t.replay_covers covers memberLive (offset + 1)).bind fun node =>
        (Run.covers_lift (covers.add group node _)).bind fun group =>
          others.replay_covers covers live _ group

end

mutual

theorem BrokenExpression.replay_covers (covers : i.Covers j) : ∀ (x : BrokenExpression)
    (live : Bool) (offset : Nat),
      Run.Covers (x.replay i live offset : Run (σ × τ) α) (x.replay j live offset)
  | .first t, live, offset => t.replay_covers covers live offset
  | .group op first others, live, offset =>
    (first.replay_covers covers live offset).bind fun node =>
      (Run.covers_lift (covers.begin op node _)).bind fun group =>
        others.replay_covers covers live _ group

theorem BrokenTerm.replay_covers (covers : i.Covers j) : ∀ (t : BrokenTerm)
    (live : Bool) (offset : Nat),
      Run.Covers (t.replay i live offset : Run (σ × τ) α) (t.replay j live offset)
  | .absent fault, _, _ => Run.covers_throw fault
  | .within x, live, offset => x.replay_covers covers live (offset + 1)
  | .unclosed x fault, live, offset =>
    (x.replay_covers covers live (offset + 1)).bind fun _ => Run.covers_throw fault

theorem BrokenMembers.replay_covers (covers : i.Covers j) : ∀ (ms : BrokenMembers)
    (live : Bool) (offset : Nat) (group : γ),
      Run.Covers (ms.replay i live offset group : Run (σ × τ) α) (ms.replay j live offset group)
  | .here t, live, offset, group =>
    (Run.covers_lift (covers.memberLive live group)).bind fun memberLive =>
      t.replay_covers covers memberLive (offset + 1)
  | .mixed t fault, live, offset, group =>
    ((Members.last t).replay_covers covers live offset group).bind fun _ => Run.covers_throw fault
  | .later t others, live, offset, group =>
    ((Members.last t).replay_covers covers live offset group).bind fun group =>
      others.replay_covers covers live _ group

end

end Grammar

/-- A reading does what another does if each part of its interpretation does. -/
theorem Interpretation.Covers.read {i : Interpretation (σ × τ) ν γ} {j : Interpretation σ ν γ}
    (covers : i.Covers j) (limit : UInt32) (label : List UInt8) :
    Run.Covers (i.read limit label) (j.read limit label) := by
  obtain ⟨outline, _, replays⟩ := Grammar.exists_outline limit label
  rw [replays i, replays j]
  cases outline with
  | empty => exact covers.empty
  | whole x => exact x.replay_covers covers true 0
  | leftOver x fault =>
    exact (x.replay_covers covers true 0).bind fun _ => Run.covers_throw fault
  | broken x => exact x.replay_covers covers true 0

theorem Policy.noted_covers (policy : Policy σ) (value : String) (charset : Charset) :
    StepCovers (policy.noted value charset) (policy value charset) := by
  intro s log
  exact ⟨_, rfl⟩

theorem Policy.check_covers (policy : Policy σ) (value : String) (charset : Charset) :
    Run.Covers (policy.noted.check value charset) (policy.check value charset) := by
  apply (Run.covers_lift (policy.noted_covers value charset)).bind
  intro allowed
  cases allowed with
  | true => exact Run.covers_pure value
  | false => exact Run.covers_throw _

theorem Policy.accept_covers (policy : Policy σ) (token : Token) :
    Run.Covers (policy.noted.accept token) (policy.accept token) :=
  (Run.covers_liftExcept token.value).bind fun value => policy.check_covers value token.charset

section

variable {policy : Policy σ} {lookup : Lookup (σ × Log)} {plain : Lookup σ}

theorem Lookup.noted_covers (covers : lookup.Covers plain) : lookup.noted.Covers plain := by
  intro value body s log
  obtain ⟨u, step⟩ := covers value body s log
  exact ⟨_, by rw [Lookup.noted, step]⟩

/-- A lookup that is made only where the groups around it are undecided. -/
theorem Lookup.covers_if (covers : lookup.Covers plain) (live : Bool) (value : String)
    (body : List UInt8) :
    Run.Covers (if live then liftM (lookup.noted value body) else pure false : Run (σ × Log) Bool)
      (if live then liftM (plain value body) else pure false : Run σ Bool) := by
  cases live with
  | true => exact Run.covers_lift (Lookup.noted_covers covers value body)
  | false => exact Run.covers_pure false

theorem Interpretation.deciding_covers (covers : lookup.Covers plain) :
    (Interpretation.deciding policy.noted lookup.noted).Covers (.deciding policy plain) where
  empty := Run.covers_pure true
  leaf token live := (policy.accept_covers token).bind fun value =>
    Lookup.covers_if covers live value token.body
  begin _ _ _ := fun _ _ => ⟨_, rfl⟩
  undecided _ := fun _ _ => ⟨_, rfl⟩
  add _ _ _ := fun _ _ => ⟨_, rfl⟩
  finish group _ := Run.covers_pure group.2

end

theorem Grants.decideSets_covers {f : Lookup (σ × τ) → Run (σ × τ) Bool}
    {g : Lookup σ → Run σ Bool} (sets : List (List (List UInt8)))
    (each : ∀ set, Run.Covers (f (.inSet set)) (g (.inSet set))) :
    Run.Covers (Grants.decideSets f sets) (Grants.decideSets g sets) := by
  induction sets with
  | nil => exact Run.covers_pure true
  | cons set sets ih =>
    apply (each set).bind
    intro opens
    cases opens with
    | true => exact ih
    | false => exact Run.covers_pure false

theorem Grants.decide_covers {f : Lookup (σ × τ) → Run (σ × τ) Bool} {g : Lookup σ → Run σ Bool}
    (grants : Grants σ) (each : ∀ (lookup : Lookup (σ × τ)) (plain : Lookup σ),
      lookup.Covers plain → Run.Covers (f lookup) (g plain)) :
    Run.Covers (grants.beside.decide f) (grants.decide g) := by
  cases grants with
  | sets all =>
    exact Grants.decideSets_covers all fun set => each _ _ fun _ _ _ _ => ⟨_, rfl⟩
  | authority ask => exact each _ _ fun _ _ _ _ => ⟨_, rfl⟩

namespace Gate

variable (gate : Gate σ)

/-- A decision that writes down what it asks is the decision. -/
theorem decideNoting_covers (label : List UInt8) :
    Run.Covers (gate.decideNoting label) (gate.decide label) :=
  gate.grants.decide_covers fun _ _ covers =>
    (Interpretation.deciding_covers covers).read gate.rules.limit label

end Gate

end Clearance
