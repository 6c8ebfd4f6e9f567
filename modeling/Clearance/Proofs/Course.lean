import Clearance.Proofs.Reading

/-! The course of a reading. An expression fixes the steps of any reading of it, in the order of its
text, and what is at hand between two steps decides with which nodes and groups the next one is
taken. Nodes and groups are named by the place, among all calls, of the call that made them. -/
namespace Clearance

/-- One step of a reading, whatever it is made of. -/
inductive Step where
  | empty
  | leaf (token : Token)
  | begin (op : Connective) (span : Span)
  | ask
  | add (span : Span)
  | finish (span : Span)

namespace Grammar

mutual

/-- The steps over an expression that begins at `offset`. -/
def Expression.steps (offset : Nat) : Expression → List Step
  | .single t => t.steps offset
  | .group op first others =>
    first.steps offset ++ .begin op ⟨offset, offset + first.text.length⟩ ::
      (others.steps (offset + first.text.length) ++
        [.finish ⟨offset, offset + first.text.length + (others.text op).length⟩])

def Term.steps (offset : Nat) : Term → List Step
  | .word w => [.leaf (w.token offset)]
  | .enclosed x => x.steps (offset + 1)

/-- Each member is asked about, read and added; `offset` is that of the connective before the first
of them. -/
def Members.steps (offset : Nat) : Members → List Step
  | .last t => .ask :: (t.steps (offset + 1) ++ [.add ⟨offset + 1, offset + 1 + t.text.length⟩])
  | .more t others =>
    .ask :: (t.steps (offset + 1) ++ .add ⟨offset + 1, offset + 1 + t.text.length⟩ ::
      others.steps (offset + 1 + t.text.length))

end

mutual

/-- The steps up to the place where an expression breaks off. -/
def BrokenExpression.steps (offset : Nat) : BrokenExpression → List Step
  | .first t => t.steps offset
  | .group op first others =>
    first.steps offset ++ .begin op ⟨offset, offset + first.text.length⟩ ::
      others.steps (offset + first.text.length)

def BrokenTerm.steps (offset : Nat) : BrokenTerm → List Step
  | .absent _ => []
  | .within x => x.steps (offset + 1)
  | .unclosed x _ => x.steps (offset + 1)

def BrokenMembers.steps (offset : Nat) : BrokenMembers → List Step
  | .here t => .ask :: t.steps (offset + 1)
  | .mixed t _ => (Members.last t).steps offset
  | .later t others =>
    (Members.last t).steps offset ++ others.steps (offset + 1 + t.text.length)

end

mutual

/-- However what breaks off is completed, its steps come first. -/
theorem BrokenExpression.steps_prefix (missing : Term) : ∀ (b : BrokenExpression) (offset : Nat),
    b.steps offset <+: (b.completed missing).steps offset
  | .first t, offset => t.steps_prefix missing offset
  | .group op first others, offset => by
    obtain ⟨more, same⟩ := others.steps_prefix missing (offset + first.text.length)
    rw [BrokenExpression.completed, Expression.steps, ← same, List.append_assoc,
      BrokenExpression.steps]
    exact (List.prefix_append_right_inj _).mpr (List.cons_prefix_cons.mpr ⟨rfl, ⟨_, rfl⟩⟩)

theorem BrokenTerm.steps_prefix (missing : Term) : ∀ (b : BrokenTerm) (offset : Nat),
    b.steps offset <+: (b.completed missing).steps offset
  | .absent _, _ => List.nil_prefix
  | .within x, offset => x.steps_prefix missing (offset + 1)
  | .unclosed _ _, _ => List.prefix_rfl

theorem BrokenMembers.steps_prefix (missing : Term) : ∀ (b : BrokenMembers) (offset : Nat),
    b.steps offset <+: (b.completed missing).steps offset
  | .here t, offset => by
    obtain ⟨more, same⟩ := t.steps_prefix missing (offset + 1)
    rw [BrokenMembers.completed, Members.steps, ← same, List.append_assoc, BrokenMembers.steps]
    exact List.cons_prefix_cons.mpr ⟨rfl, ⟨_, rfl⟩⟩
  | .mixed _ _, _ => List.prefix_rfl
  | .later t others, offset => by
    have later := others.steps_prefix missing (offset + 1 + t.text.length)
    rw [BrokenMembers.completed, Members.steps, BrokenMembers.steps, Members.steps,
      List.cons_append, List.append_assoc]
    exact List.cons_prefix_cons.mpr ⟨rfl, (List.prefix_append_right_inj _).mpr
      (List.cons_prefix_cons.mpr ⟨rfl, later⟩)⟩

end

/-- The steps that a reading takes if nothing fails. -/
def Outline.steps : Outline → List Step
  | .empty => [.empty]
  | .whole x | .leftOver x _ => x.steps 0
  | .broken b => b.steps 0

end Grammar

/-- A call of a part of an interpretation. Nodes and groups stand under their names. -/
inductive Event where
  | empty
  | leaf (token : Token) (live : Bool)
  | begin (op : Connective) (first : Nat) (span : Span)
  | undecided (group : Nat) (answer : Bool)
  | add (group member : Nat) (span : Span)
  | finish (group : Nat) (span : Span)
  deriving DecidableEq, Repr

/-- The groups that have begun and not ended, the innermost first, each with what it has answered
about the member that is under way. -/
abbrev Groups := List (Nat × Option Bool)

/-- Whether every group has answered that the member under way can still matter. -/
def Groups.alive (groups : Groups) : Bool := groups.all fun group => group.2 == some true

/-- What is at hand between two calls. -/
structure Desk where
  /-- A node that has been made and not been handed over. -/
  node? : Option Nat
  groups : Groups

namespace Desk

/-- Takes a step with what is at hand: the calls that are made for it, from `place` on, and what is
at hand then. A node that is at hand goes to the next call, and only the innermost group is used. -/
inductive Takes (place : Nat) : Desk → Step → List Event → Desk → Prop where
  | empty : Takes place ⟨none, []⟩ .empty [.empty] ⟨some place, []⟩
  | leaf (groups : Groups) (token : Token) :
      Takes place ⟨none, groups⟩ (.leaf token) [.leaf token groups.alive] ⟨some place, groups⟩
  | begin (groups : Groups) (first : Nat) (op : Connective) (span : Span) :
      Takes place ⟨some first, groups⟩ (.begin op span) [.begin op first span]
        ⟨none, (place, none) :: groups⟩
  | ask (groups : Groups) (group : Nat) (answer : Bool) (alive : groups.alive = true) :
      Takes place ⟨none, (group, none) :: groups⟩ .ask [.undecided group answer]
        ⟨none, (group, some answer) :: groups⟩
  /-- Within a decided group nothing is asked. -/
  | pass (groups : Groups) (group : Nat) (decided : groups.alive = false) :
      Takes place ⟨none, (group, none) :: groups⟩ .ask [] ⟨none, (group, some false) :: groups⟩
  | add (groups : Groups) (group member : Nat) (answer : Bool) (span : Span) :
      Takes place ⟨some member, (group, some answer) :: groups⟩ (.add span)
        [.add group member span] ⟨none, (group, none) :: groups⟩
  | finish (groups : Groups) (group : Nat) (span : Span) :
      Takes place ⟨none, (group, none) :: groups⟩ (.finish span) [.finish group span]
        ⟨some place, groups⟩

/-- Takes steps one after the other. -/
inductive TakesAll : Nat → Desk → List Step → List Event → Desk → Prop where
  | nil (place : Nat) (d : Desk) : TakesAll place d [] [] d
  | cons {place : Nat} {d d' d'' : Desk} {step : Step} {steps : List Step} {events more : List Event}
      (first : Takes place d step events d')
      (later : TakesAll (place + events.length) d' steps more d'') :
      TakesAll place d (step :: steps) (events ++ more) d''

variable {place : Nat} {d d' d'' : Desk} {step : Step} {steps steps' : List Step}
  {events more : List Event}

theorem Takes.all (takes : Takes place d step events d') : TakesAll place d [step] events d' := by
  have whole := TakesAll.cons takes (.nil _ d')
  rwa [List.append_nil] at whole

theorem TakesAll.append (first : TakesAll place d steps events d')
    (later : TakesAll (place + events.length) d' steps' more d'') :
    TakesAll place d (steps ++ steps') (events ++ more) d'' := by
  induction first with
  | nil => exact later
  | cons takes _ ih =>
    rw [List.length_append, ← Nat.add_assoc] at later
    rw [List.append_assoc]
    exact .cons takes (ih later)

/-- Steps that can be taken to the end with what is at hand, whatever is answered on the way. -/
def Ready : List Step → Desk → Prop
  | [], _ => True
  | step :: steps, d =>
    (∀ place, ∃ events d', Takes place d step events d') ∧
      ∀ place events d', Takes place d step events d' → Ready steps d'

theorem Ready.exists_takesAll : ∀ {steps : List Step} {d : Desk}, Ready steps d → ∀ place,
    ∃ events d', TakesAll place d steps events d'
  | [], d, _, place => ⟨[], d, .nil place d⟩
  | step :: steps, d, ready, place => by
    obtain ⟨events, d', takes⟩ := ready.1 place
    obtain ⟨more, d'', later⟩ := (ready.2 place events d' takes).exists_takesAll _
    exact ⟨events ++ more, d'', .cons takes later⟩

/-- However some of the steps have been taken, the others can be taken behind them. -/
theorem TakesAll.exists_more (takes : TakesAll place d steps events d') :
    ∀ {whole : List Step}, steps <+: whole → Ready whole d →
      ∃ more d'', TakesAll place d whole (events ++ more) d'' := by
  induction takes with
  | nil place d => exact fun _ ready => ready.exists_takesAll place
  | @cons place d d' d'' step steps events more first _ ih =>
    rintro _ ⟨rest, rfl⟩ ready
    obtain ⟨others, last, later⟩ := ih ⟨rest, rfl⟩ (ready.2 place events d' first)
    refine ⟨others, last, ?_⟩
    rw [List.append_assoc]
    exact .cons first later

section

variable {groups : Groups} {group : Nat} {rest : List Step}

theorem ready_leaf (token : Token) (later : ∀ name, Ready rest ⟨some name, groups⟩) :
    Ready (.leaf token :: rest) ⟨none, groups⟩ := by
  refine ⟨fun place => ⟨_, _, .leaf groups token⟩, ?_⟩
  rintro place _ _ ⟨⟩
  exact later place

theorem ready_begin {first : Nat} (op : Connective) (span : Span)
    (later : ∀ group, Ready rest ⟨none, (group, none) :: groups⟩) :
    Ready (.begin op span :: rest) ⟨some first, groups⟩ := by
  refine ⟨fun place => ⟨_, _, .begin groups first op span⟩, ?_⟩
  rintro place _ _ ⟨⟩
  exact later place

theorem ready_ask (later : ∀ answer, Ready rest ⟨none, (group, some answer) :: groups⟩) :
    Ready (.ask :: rest) ⟨none, (group, none) :: groups⟩ := by
  constructor
  · intro place
    cases alive : groups.alive with
    | true => exact ⟨_, _, .ask groups group true alive⟩
    | false => exact ⟨_, _, .pass groups group alive⟩
  · intro place events d takes
    cases takes with
    | ask _ _ answer _ => exact later answer
    | pass _ _ _ => exact later false

theorem ready_add {member : Nat} {answer : Bool} (span : Span)
    (later : Ready rest ⟨none, (group, none) :: groups⟩) :
    Ready (.add span :: rest) ⟨some member, (group, some answer) :: groups⟩ := by
  refine ⟨fun place => ⟨_, _, .add groups group member answer span⟩, ?_⟩
  rintro place _ _ ⟨⟩
  exact later

theorem ready_finish (span : Span) (later : ∀ name, Ready rest ⟨some name, groups⟩) :
    Ready (.finish span :: rest) ⟨none, (group, none) :: groups⟩ := by
  refine ⟨fun place => ⟨_, _, .finish groups group span⟩, ?_⟩
  rintro place _ _ ⟨⟩
  exact later place

end

end Desk

namespace Grammar

open Desk

mutual

/-- The steps over an expression can always be taken, and leave a node at hand. -/
theorem Expression.ready : ∀ (x : Expression) (groups : Groups) (offset : Nat) {rest : List Step},
    (∀ name, Ready rest ⟨some name, groups⟩) → Ready (x.steps offset ++ rest) ⟨none, groups⟩
  | .single t, groups, offset, _, later => t.ready groups offset later
  | .group op first others, groups, offset, _, later => by
    rw [Expression.steps, List.append_assoc, List.cons_append, List.append_assoc]
    exact first.ready groups offset fun _ => ready_begin op _ fun group =>
      others.ready groups _ group (ready_finish _ later)

theorem Term.ready : ∀ (t : Term) (groups : Groups) (offset : Nat) {rest : List Step},
    (∀ name, Ready rest ⟨some name, groups⟩) → Ready (t.steps offset ++ rest) ⟨none, groups⟩
  | .word w, _, offset, _, later => ready_leaf (w.token offset) later
  | .enclosed x, groups, offset, _, later => x.ready groups (offset + 1) later

theorem Members.ready : ∀ (ms : Members) (groups : Groups) (offset group : Nat) {rest : List Step},
    Ready rest ⟨none, (group, none) :: groups⟩ →
      Ready (ms.steps offset ++ rest) ⟨none, (group, none) :: groups⟩
  | .last t, groups, offset, group, _, later => by
    rw [Members.steps, List.cons_append, List.append_assoc]
    exact ready_ask fun answer =>
      t.ready ((group, some answer) :: groups) (offset + 1) fun _ => ready_add _ later
  | .more t others, groups, offset, group, _, later => by
    rw [Members.steps, List.cons_append, List.append_assoc, List.cons_append]
    exact ready_ask fun answer =>
      t.ready ((group, some answer) :: groups) (offset + 1) fun _ => ready_add _
        (others.ready groups _ group later)

end

end Grammar

namespace Event

/-- Whether a call makes a node. -/
def makes : Event → Bool
  | .empty | .leaf .. | .finish .. => true
  | _ => false

/-- The node that is handed over in a call. -/
def takes? : Event → Option Nat
  | .begin _ first _ => some first
  | .add _ member _ => some member
  | _ => none

end Event

/-- The nodes that calls make, the first of which is at `place`. -/
def made (place : Nat) : List Event → List Nat
  | [] => []
  | event :: events =>
    if event.makes then place :: made (place + 1) events else made (place + 1) events

/-- The nodes that are handed over in calls. -/
def handed (events : List Event) : List Nat := events.filterMap Event.takes?

theorem made_append (events more : List Event) : ∀ place,
    made place (events ++ more) = made place events ++ made (place + events.length) more := by
  induction events with
  | nil => exact fun _ => rfl
  | cons event events ih =>
    intro place
    rw [List.cons_append, made, made, ih, List.length_cons, Nat.add_comm events.length,
      ← Nat.add_assoc]
    split <;> rfl

theorem Desk.Takes.handed {place : Nat} {d d' : Desk} {step : Step} {events : List Event}
    (takes : Desk.Takes place d step events d') :
    d.node?.toList ++ made place events = Clearance.handed events ++ d'.node?.toList := by
  cases takes <;> rfl

/-- Nodes are handed over one by one, in the order in which they are made. -/
theorem Desk.TakesAll.handed {place : Nat} {d d' : Desk} {steps : List Step} {events : List Event}
    (takes : Desk.TakesAll place d steps events d') :
    d.node?.toList ++ made place events = Clearance.handed events ++ d'.node?.toList := by
  induction takes with
  | nil => exact List.append_nil _
  | @cons place d d' d'' step steps events more first _ ih =>
    have here := first.handed
    rw [made_append, ← List.append_assoc, here, List.append_assoc, ih, ← List.append_assoc,
      Clearance.handed, Clearance.handed, Clearance.handed, List.filterMap_append]

end Clearance
