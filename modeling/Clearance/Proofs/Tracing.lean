import Clearance.Proofs.Course
import Clearance.Proofs.Screening

/-! Readings of which every call is written down, whatever the interpretation does. The nodes and
groups of the interpretation are carried along under their names, so what is written down tells
which of them are handed over where. -/
namespace Clearance

variable {σ ν γ α β α' β' : Type}

/-- A call, and the fault that it ended with, if it did. -/
structure Noted where
  event : Event
  fault? : Option Fault := none

/-- Calls of which none has failed. -/
def quiet (events : List Event) : List Noted := events.map ({ event := · })

theorem quiet_append (events more : List Event) :
    quiet (events ++ more) = quiet events ++ quiet more :=
  List.map_append

theorem map_event_quiet (events : List Event) : (quiet events).map Noted.event = events := by
  rw [quiet, List.map_map]
  exact List.map_id events

theorem fault?_of_mem_quiet {events : List Event} {noted : Noted} (member : noted ∈ quiet events) :
    noted.fault? = none := by
  obtain ⟨_, _, rfl⟩ := List.mem_map.mp member
  rfl

theorem findSome?_quiet (events : List Event) : (quiet events).findSome? Noted.fault? = none :=
  List.findSome?_eq_none_iff.mpr fun _ => fault?_of_mem_quiet

/-- Writes down a call that may fail, and gives what it makes its name. -/
def Run.noting (event : Event) (x : Run σ α) : Run (σ × List Noted) (α × Nat) :=
  ExceptT.mk fun (s, log) =>
    ((x.on s).1.map (·, log.length), ((x.on s).2, log ++ [⟨event, x.fault? s⟩]))

/-- The same interpretation, which writes down all calls, with the names of nodes and groups. -/
def Interpretation.traced (i : Interpretation σ ν γ) :
    Interpretation (σ × List Noted) (ν × Nat) (γ × Nat) where
  empty := i.empty.noting .empty
  leaf token live := (i.leaf token live).noting (.leaf token live)
  begin op first span := fun (s, log) =>
    let (group, s) := i.begin op first.1 span s
    ((group, log.length), (s, log ++ [{ event := .begin op first.2 span }]))
  undecided group := fun (s, log) =>
    let (answer, s) := i.undecided group.1 s
    (answer, (s, log ++ [{ event := .undecided group.2 answer }]))
  add group member span := fun (s, log) =>
    let (grown, s) := i.add group.1 member.1 span s
    ((grown, group.2), (s, log ++ [{ event := .add group.2 member.2 span }]))
  finish group span := (i.finish group.1 span).noting (.finish group.2 span)

/-- What has become of steps that were to be taken with what was at hand: all are taken, and then
the run ends well or stops with a fault of its own; or a call has failed, and nothing follows it. -/
inductive Carried (place : Nat) (d : Desk) (steps : List Step) (after : α → Desk)
    (stop? : Option Fault) : List Noted → Except Fault α → Prop where
  | done (events : List Event) (a : α) (goes : stop? = none)
      (takes : d.TakesAll place steps events (after a)) :
      Carried place d steps after stop? (quiet events) (.ok a)
  | stopped (events : List Event) {d' : Desk} {fault : Fault} (stops : stop? = some fault)
      (takes : d.TakesAll place steps events d') :
      Carried place d steps after stop? (quiet events) (.error fault)
  | failed (events : List Event) {event : Event} {taken : List Step} {d' : Desk} {fault : Fault}
      (begun : taken <+: steps) (takes : d.TakesAll place taken (events ++ [event]) d') :
      Carried place d steps after stop? (quiet events ++ [⟨event, some fault⟩]) (.error fault)

/-- A run that does what another does, with names for what it makes and every call written down;
the calls are those of these steps. -/
def Run.Carries (x : Run (σ × List Noted) α) (y : Run σ β) (out : α → β) (d : Desk)
    (steps : List Step) (after : α → Desk) (stop? : Option Fault := none) : Prop :=
  ∀ s log, ∃ outcome t noted, x.on (s, log) = (outcome, (t, log ++ noted)) ∧
    y.on s = (outcome.map out, t) ∧ Carried log.length d steps after stop? noted outcome

namespace Run

variable {x : Run (σ × List Noted) α} {y : Run σ β} {out : α → β} {d d' : Desk}
  {steps more : List Step} {after : α → Desk} {stop? : Option Fault}

theorem carries_throw (fault : Fault) (d : Desk) (out : α → β) (after : α → Desk) :
    Carries (throw fault) (throw fault : Run σ β) out d [] after (some fault) :=
  fun s log => ⟨.error fault, s, [], by rw [List.append_nil]; rfl, rfl, .stopped [] rfl (.nil _ d)⟩

theorem carries_noting {event : Event} {step : Step} {after : Nat → Desk}
    (takes : ∀ place, d.Takes place step [event] (after place)) (y : Run σ β) :
    Carries (y.noting event) y Prod.fst d [step] fun a => after a.2 := by
  intro s log
  refine ⟨_, _, _, rfl, ?_, ?_⟩
  · rcases y.on s with ⟨_ | _, _⟩ <;> rfl
  · rw [fault?]
    rcases y.on s with ⟨fault | b, t⟩
    · exact .failed [] List.prefix_rfl (takes log.length).all
    · exact .done [event] (b, log.length) rfl (takes log.length).all

/-- A call that cannot fail. -/
theorem carries_lift (out : α → β) {x : StateM (σ × List Noted) α} {y : StateM σ β} {step : Step}
    (takes : ∀ s log, ∃ event, x (s, log) = ((x (s, log)).1, ((y s).2, log ++ [{ event := event }])) ∧
      out (x (s, log)).1 = (y s).1 ∧
      d.Takes log.length step [event] (after (x (s, log)).1)) :
    Carries (liftM x : Run (σ × List Noted) α) (liftM y) out d [step] after := by
  intro s log
  obtain ⟨event, same, result, takes⟩ := takes s log
  refine ⟨.ok (x (s, log)).1, (y s).2, [{ event := event }], ?_, ?_, ?_⟩
  · rw [on_lift, same]
  · rw [on_lift, ← result]
    rfl
  · exact .done [event] _ rfl takes.all

namespace Carries

/-- The calls of one part follow on those of the part before it. -/
theorem bind {f : α → Run (σ × List Noted) α'} {g : β → Run σ β'} {out' : α' → β'}
    {after' : α' → Desk} (first : Carries x y out d steps after)
    (second : ∀ a, Carries (f a) (g (out a)) out' (after a) more after' stop?) :
    Carries (x >>= f) (y >>= g) out' d (steps ++ more) after' stop? := by
  intro s log
  obtain ⟨outcome, t, noted, hx, hy, carried⟩ := first s log
  rw [on_bind, on_bind, hx, hy]
  cases carried with
  | done events a _ takes =>
    obtain ⟨outcome, u, noted, hf, hg, later⟩ := second a t (log ++ quiet events)
    refine ⟨outcome, u, quiet events ++ noted, ?_, hg, ?_⟩
    · rw [← List.append_assoc]
      exact hf
    rw [List.length_append, quiet, List.length_map] at later
    cases later with
    | done more b goes takes' =>
      rw [← quiet_append]
      exact .done (events ++ more) b goes (takes.append takes')
    | stopped more stops takes' =>
      rw [← quiet_append]
      exact .stopped (events ++ more) stops (takes.append takes')
    | failed more begun takes' =>
      have whole := takes.append takes'
      rw [← List.append_assoc] at whole
      rw [← List.append_assoc, ← quiet_append]
      exact .failed (events ++ more) ((List.prefix_append_right_inj steps).mpr begun) whole
  | stopped _ stops _ => cases stops
  | @failed events event taken _ fault begun takes =>
    exact ⟨.error fault, t, _, rfl, rfl,
      .failed events (begun.trans (List.prefix_append _ _)) takes⟩

/-- What is stopped behind its last call. -/
theorem stop (carries : Carries x y out d steps after) (fault : Fault) (out' : α' → β')
    (after' : α' → Desk) :
    Carries (x >>= fun _ => throw fault) (y >>= fun _ => throw fault) out' d steps after'
      (some fault) := by
  have whole := carries.bind (f := fun _ => throw fault) (g := fun _ => throw fault)
    fun a => carries_throw fault (after a) out' after'
  rwa [List.append_nil] at whole

/-- A step that makes no call. -/
theorem silent {step : Step} (pass : ∀ place, d.Takes place step [] d')
    (carries : Carries x y out d' steps after stop?) :
    Carries x y out d (step :: steps) after stop? := by
  intro s log
  obtain ⟨outcome, t, noted, hx, hy, carried⟩ := carries s log
  refine ⟨outcome, t, noted, hx, hy, ?_⟩
  have later {taken : List Step} {events : List Event} {e : Desk}
      (takes : d'.TakesAll log.length taken events e) :
      d.TakesAll log.length (step :: taken) events e := .cons (pass log.length) takes
  cases carried with
  | done events a goes takes => exact .done events a goes (later takes)
  | stopped events stops takes => exact .stopped events stops (later takes)
  | failed events begun takes =>
    exact .failed events (List.cons_prefix_cons.mpr ⟨rfl, begun⟩) (later takes)

/-- A group is asked about its next member unless a group around it is decided; either way the
member is read as what is at hand then says. -/
theorem memberLive {i : Interpretation σ ν γ} {groups : Groups} {group : γ × Nat}
    {f : Bool → Run (σ × List Noted) α'} {g : Bool → Run σ β'} {out' : α' → β'}
    {after' : α' → Desk}
    (second : ∀ answer, Carries (f (Groups.alive ((group.2, some answer) :: groups)))
      (g (Groups.alive ((group.2, some answer) :: groups))) out'
      ⟨none, (group.2, some answer) :: groups⟩ more after' stop?) :
    Carries (liftM (i.traced.memberLive groups.alive group) >>= f)
      (liftM (i.memberLive groups.alive group.1) >>= g) out' ⟨none, (group.2, none) :: groups⟩
      (.ask :: more) after' stop? := by
  have flag (answer : Bool) : Groups.alive ((group.2, some answer) :: groups) =
      (answer && groups.alive) := by
    cases answer <;> rfl
  simp only [flag] at second
  cases alive : groups.alive with
  | true =>
    simp only [alive, Bool.and_true] at second
    have asked : Carries (liftM (i.traced.undecided group)) (liftM (i.undecided group.1)) id
        ⟨none, (group.2, none) :: groups⟩ [.ask] fun answer =>
          ⟨none, (group.2, some answer) :: groups⟩ :=
      carries_lift id fun _ _ => ⟨_, rfl, rfl, .ask groups group.2 _ alive⟩
    exact asked.bind second
  | false =>
    have decided := second false
    exact .silent (fun _ => .pass groups group.2 alive) decided

end Carries

end Run

namespace Grammar

variable (i : Interpretation σ ν γ)

mutual

/-- A reading of an expression takes its steps, and a node is at hand then. -/
theorem Expression.replay_carries : ∀ (x : Expression) (groups : Groups) (offset : Nat),
    Run.Carries (x.replay i.traced groups.alive offset) (x.replay i groups.alive offset) Prod.fst
      ⟨none, groups⟩ (x.steps offset) fun node => ⟨some node.2, groups⟩
  | .single t, groups, offset => t.replay_carries groups offset
  | .group op first others, groups, offset =>
    (first.replay_carries groups offset).bind fun node =>
      (Run.carries_lift Prod.fst fun _ _ =>
        ⟨_, rfl, rfl, .begin groups node.2 op _⟩).bind fun group =>
          (others.replay_carries groups _ group).bind fun group =>
            Run.carries_noting (fun _ => .finish groups group.2 _) _

theorem Term.replay_carries : ∀ (t : Term) (groups : Groups) (offset : Nat),
    Run.Carries (t.replay i.traced groups.alive offset) (t.replay i groups.alive offset) Prod.fst
      ⟨none, groups⟩ (t.steps offset) fun node => ⟨some node.2, groups⟩
  | .word w, groups, offset => Run.carries_noting (fun _ => .leaf groups (w.token offset)) _
  | .enclosed x, groups, offset => x.replay_carries groups (offset + 1)

theorem Members.replay_carries : ∀ (ms : Members) (groups : Groups) (offset : Nat)
    (group : γ × Nat),
      Run.Carries (ms.replay i.traced groups.alive offset group)
        (ms.replay i groups.alive offset group.1) Prod.fst ⟨none, (group.2, none) :: groups⟩
        (ms.steps offset) fun group => ⟨none, (group.2, none) :: groups⟩
  | .last t, groups, offset, group =>
    Run.Carries.memberLive fun answer =>
      (t.replay_carries ((group.2, some answer) :: groups) (offset + 1)).bind fun node =>
        Run.carries_lift Prod.fst fun _ _ => ⟨_, rfl, rfl, .add groups group.2 node.2 answer _⟩
  | .more t others, groups, offset, group =>
    Run.Carries.memberLive fun answer =>
      (t.replay_carries ((group.2, some answer) :: groups) (offset + 1)).bind fun node =>
        (Run.carries_lift Prod.fst fun _ _ =>
          ⟨_, rfl, rfl, .add groups group.2 node.2 answer _⟩).bind fun group =>
            others.replay_carries groups _ group

end

mutual

/-- A reading that breaks off takes the steps before the break. -/
theorem BrokenExpression.replay_carries (out : α → β) (after : α → Desk) : ∀ (b : BrokenExpression)
    (groups : Groups) (offset : Nat),
      Run.Carries (b.replay i.traced groups.alive offset) (b.replay i groups.alive offset) out
        ⟨none, groups⟩ (b.steps offset) after (some b.fault)
  | .first t, groups, offset => t.replay_carries out after groups offset
  | .group op first others, groups, offset =>
    (first.replay_carries i groups offset).bind fun node =>
      (Run.carries_lift Prod.fst fun _ _ =>
        ⟨_, rfl, rfl, .begin groups node.2 op _⟩).bind fun group =>
          others.replay_carries out after groups _ group

theorem BrokenTerm.replay_carries (out : α → β) (after : α → Desk) : ∀ (b : BrokenTerm)
    (groups : Groups) (offset : Nat),
      Run.Carries (b.replay i.traced groups.alive offset) (b.replay i groups.alive offset) out
        ⟨none, groups⟩ (b.steps offset) after (some b.fault)
  | .absent fault, groups, _ => Run.carries_throw fault ⟨none, groups⟩ out after
  | .within x, groups, offset => x.replay_carries out after groups (offset + 1)
  | .unclosed x fault, groups, offset =>
    (x.replay_carries i groups (offset + 1)).stop fault out after

theorem BrokenMembers.replay_carries (out : α → β) (after : α → Desk) : ∀ (b : BrokenMembers)
    (groups : Groups) (offset : Nat) (group : γ × Nat),
      Run.Carries (b.replay i.traced groups.alive offset group)
        (b.replay i groups.alive offset group.1) out ⟨none, (group.2, none) :: groups⟩
        (b.steps offset) after (some b.fault)
  | .here t, groups, offset, group =>
    Run.Carries.memberLive fun answer =>
      t.replay_carries out after ((group.2, some answer) :: groups) (offset + 1)
  | .mixed t fault, groups, offset, group =>
    ((Members.last t).replay_carries i groups offset group).stop fault out after
  | .later t others, groups, offset, group =>
    ((Members.last t).replay_carries i groups offset group).bind fun group =>
      others.replay_carries out after groups _ group

end

theorem Outline.replay_carries (outline : Outline) :
    Run.Carries (outline.replay i.traced) (outline.replay i) Prod.fst ⟨none, []⟩ outline.steps
      (fun node => ⟨some node.2, []⟩) outline.fault? := by
  cases outline with
  | empty => exact Run.carries_noting (fun _ => .empty) i.empty
  | whole x => exact x.replay_carries i [] 0
  | leftOver x fault => exact (x.replay_carries i [] 0).stop fault Prod.fst _
  | broken b => exact b.replay_carries i Prod.fst _ [] 0

end Grammar

end Clearance
