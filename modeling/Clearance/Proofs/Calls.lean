import Clearance.Proofs.Delivery
import Clearance.Proofs.Frontier
import Clearance.Proofs.Tracing

/-! Which calls a reading makes, whatever the interpretation does. They are those of the steps over
the label, or over an expression that begins with as much of it as any, up to the first call that
fails or to the place where the label breaks off. -/
namespace Clearance

variable {σ ν γ : Type} {limit : UInt32} {label : List UInt8}

/-- Nodes are named in the order in which they are made. -/
theorem made_pairwise (events : List Event) : ∀ place, (made place events).Pairwise (· < ·) ∧
    ∀ name ∈ made place events, place ≤ name := by
  induction events with
  | nil => exact fun _ => ⟨.nil, nofun⟩
  | cons event events ih =>
    intro place
    obtain ⟨ascending, later⟩ := ih (place + 1)
    rw [made]
    split
    · exact ⟨.cons later ascending, List.forall_mem_cons.mpr
        ⟨Nat.le_refl _, fun name member => Nat.le_of_succ_le (later name member)⟩⟩
    · exact ⟨ascending, fun name member => Nat.le_of_succ_le (later name member)⟩

namespace Grammar

/-- What a label can be as a whole: nothing, or an expression. -/
abbrev Whole := Option Expression

namespace Whole

def text : Whole → List UInt8
  | none => []
  | some x => x.text

def depth : Whole → Nat
  | none => 0
  | some x => x.depth

/-- The steps of a reading. -/
def steps : Whole → List Step
  | none => [.empty]
  | some x => x.steps 0

theorem ready : ∀ whole : Whole, Desk.Ready whole.steps ⟨none, []⟩
  | none => ⟨fun _ => ⟨_, _, .empty⟩, fun _ _ _ _ => trivial⟩
  | some x => by
    have alone : Desk.Ready (x.steps 0 ++ []) ⟨none, []⟩ := x.ready [] 0 fun _ => trivial
    rwa [List.append_nil] at alone

end Whole

/-- A label that can be read: it is empty, or an expression whose parentheses nest within the
limit. -/
def Readable (limit : UInt32) (label : List UInt8) : Prop :=
  label = [] ∨ IsExpression label ∧ nesting label ≤ limit.toNat

theorem Readable.malformation?_eq (readable : Readable limit label) :
    malformation? limit label = none := by
  rcases readable with rfl | ⟨⟨x, rfl⟩, within⟩
  · rfl
  · rw [nesting_text] at within
    rw [malformation?, read_text x within]
    exact Run.fault?_eq_none.mpr
      (x.replay_succeeds Interpretation.collecting_neverFails true 0 [])

/-- The frontier of a label that could become an expression is its end. -/
theorem frontier_of_viable (viable : Viable limit.toNat label) :
    Frontier limit.toNat label label.length :=
  ⟨⟨Nat.le_refl _, by rwa [List.take_length]⟩, fun _ ⟨bound, _⟩ => bound⟩

end Grammar

open Grammar

theorem Fault.Marks.reach_eq {p : Nat} {fault : Fault} (marks : fault.Marks label p) :
    fault.reach label = p := by
  cases fault with
  | malformed cause text offset =>
    cases cause with
    | unclosedQuote => exact marks.1.symm
    | emptyQuotes => exact marks.1
    | looseEscape => exact marks.1
    | other message => exact marks.elim
    | mixedConnectives => exact marks
    | noTerm seen => exact marks
    | unexpected wanted seen => exact marks
    | leftOver seen => exact marks
  | tooDeep limit text offset => exact marks
  | refused authorization => exact marks.elim
  | misuse cause => exact marks.elim

theorem Obstacle.frontier {fault : Fault} (obstacle : Obstacle limit label fault) :
    Frontier limit.toNat label (fault.reach label) ∧ fault.Marks label (fault.reach label) := by
  obtain ⟨p, frontier, locates⟩ := obstacle.locates
  rw [locates.marks.reach_eq]
  exact ⟨frontier, locates.marks⟩

namespace Grammar

/-- A whole within the limit that begins with as much of the label as any such expression does, up
to where something is wrong with it. The label itself is the whole if it can be read. -/
structure Whole.Completes (limit : UInt32) (label : List UInt8) (whole : Whole) : Prop where
  within : whole.depth ≤ limit.toNat
  begins : ∃ p, Frontier limit.toNat label p ∧
    (∀ fault ∈ malformation? limit label, fault.Marks label p) ∧ label.take p <+: whole.text
  own : Readable limit label → whole.text = label

theorem Whole.completes_own {whole : Whole} (within : whole.depth ≤ limit.toNat)
    (readable : Readable limit label) (viable : Viable limit.toNat label)
    (text : whole.text = label) : whole.Completes limit label where
  within := within
  begins := by
    refine ⟨_, frontier_of_viable viable, fun fault found => ?_, ?_⟩
    · rw [readable.malformation?_eq] at found
      cases found
    · rw [text]
      exact List.take_prefix _ _
  own _ := text

theorem Whole.completes_of_stuck {whole : Whole} {fault : Fault} (within : whole.depth ≤ limit.toNat)
    (obstacle : Obstacle limit label fault) (stuck : malformation? limit label = some fault)
    (resumes : Resumes (Cursor.start label) fault whole.text) : whole.Completes limit label where
  within := within
  begins := by
    obtain ⟨frontier, marks⟩ := obstacle.frontier
    refine ⟨_, frontier, fun fault' found => ?_, resumes⟩
    cases stuck.symm.trans found
    exact marks
  own readable := by
    rw [readable.malformation?_eq] at stuck
    cases stuck

/-- The steps of an outline are the first steps over a whole. -/
theorem Outline.exists_whole {outline : Outline} (fits : outline.Fits limit label)
    (resumes : outline.Resumes limit label) (ends : malformation? limit label = outline.fault?) :
    ∃ whole : Whole, whole.Completes limit label ∧ outline.steps <+: whole.steps ∧
      (outline.fault? = none → outline.steps = whole.steps) := by
  cases outline with
  | empty =>
    obtain rfl : label = [] := fits
    exact ⟨none, Whole.completes_own (Nat.zero_le _) (Or.inl rfl)
      (due_start limit.toNat []).viable rfl, List.prefix_rfl, fun _ => rfl⟩
  | whole x =>
    obtain ⟨rfl, within⟩ := fits
    have viable : Viable limit.toNat x.text :=
      viable_iff.mpr ⟨x, [], (List.append_nil _).symm, within⟩
    have readable : Readable limit x.text := Or.inr ⟨⟨x, rfl⟩, by rwa [nesting_text]⟩
    exact ⟨some x, Whole.completes_own within readable viable rfl, List.prefix_rfl, fun _ => rfl⟩
  | leftOver x fault =>
    obtain ⟨within, starts⟩ := resumes
    exact ⟨some x, Whole.completes_of_stuck within fits ends starts, List.prefix_rfl, nofun⟩
  | broken b =>
    obtain ⟨missing, within, starts⟩ := resumes
    exact ⟨some (b.completed missing), Whole.completes_of_stuck within fits ends starts,
      b.steps_prefix missing 0, nofun⟩

end Grammar

/-- An account of a reading from the state `s`: its calls, one by one, and what they come to. The
`taken` steps are those that it has got to, and `d` is at hand in the end. -/
structure Interpretation.Account (i : Interpretation σ ν γ) (limit : UInt32) (label : List UInt8)
    (whole : Whole) (s : σ) (outcome : Except Fault (ν × Nat)) (log : List Noted)
    (taken : List Step) (d : Desk) : Prop where
  /-- The calls are those of the reading itself, which ends in the same way. -/
  reads : ∃ t, (i.traced.read limit label).on (s, []) = (outcome, (t, log)) ∧
    (i.read limit label).on s = (outcome.map Prod.fst, t)
  /-- The steps are the first over the whole, and all of them if the reading ends well. -/
  begun : taken <+: whole.steps
  completed (node : ν) (name : Nat) :
    outcome = .ok (node, name) → taken = whole.steps ∧ d = ⟨some name, []⟩
  /-- Each step is taken with what is at hand, beginning with nothing, and the calls are the first
  of such as are made when all are taken. -/
  takes : Desk.TakesAll 0 ⟨none, []⟩ taken (log.map Noted.event) d
  goesOn : ∃ more d', Desk.TakesAll 0 ⟨none, []⟩ whole.steps (log.map Noted.event ++ more) d'
  /-- Nodes are handed over as they are made, each once; in the end one may be left. -/
  hands : handed (log.map Noted.event) ++ d.node?.toList = made 0 (log.map Noted.event)
  once : (handed (log.map Noted.event) ++ d.node?.toList).Nodup
  /-- Nothing follows a call that fails, and its fault is that of the reading; if none fails, it
  is what is wrong with the label. -/
  last : ∀ noted ∈ log.dropLast, noted.fault? = none
  fault : (i.read limit label).fault? s =
    (log.findSome? Noted.fault?).or (malformation? limit label)

section

variable {i : Interpretation σ ν γ} {whole : Whole} {s t : σ} {outcome : Except Fault (ν × Nat)}
  {log : List Noted} {steps taken : List Step} {d : Desk}

/-- That nodes are handed over in turn, and that the calls can be gone on with, lies in how steps
are taken. -/
theorem Interpretation.Account.of_takes
    (reads : ∃ t, (i.traced.read limit label).on (s, []) = (outcome, (t, log)) ∧
      (i.read limit label).on s = (outcome.map Prod.fst, t))
    (begun : taken <+: whole.steps)
    (completed : ∀ node name, outcome = .ok (node, name) →
      taken = whole.steps ∧ d = ⟨some name, []⟩)
    (takes : Desk.TakesAll 0 ⟨none, []⟩ taken (log.map Noted.event) d)
    (last : ∀ noted ∈ log.dropLast, noted.fault? = none)
    (fault : (i.read limit label).fault? s =
      (log.findSome? Noted.fault?).or (malformation? limit label)) :
    i.Account limit label whole s outcome log taken d := by
  have hands : made 0 (log.map Noted.event) = handed (log.map Noted.event) ++ d.node?.toList :=
    takes.handed
  refine ⟨reads, begun, completed, takes, takes.exists_more begun whole.ready, hands.symm, ?_, last,
    fault⟩
  rw [← hands]
  exact (made_pairwise _ 0).1.imp Nat.ne_of_lt

/-- What has become of the steps of a reading is an account of it. -/
theorem Carried.account (traced : (i.traced.read limit label).on (s, []) = (outcome, (t, log)))
    (plain : (i.read limit label).on s = (outcome.map Prod.fst, t))
    (carried : Carried 0 ⟨none, []⟩ steps (fun node => ⟨some node.2, []⟩)
      (malformation? limit label) log outcome)
    (begun : steps <+: whole.steps) (all : malformation? limit label = none → steps = whole.steps) :
    ∃ taken d, i.Account limit label whole s outcome log taken d := by
  cases carried with
  | done events node goes takes =>
    refine ⟨steps, ⟨some node.2, []⟩, .of_takes ⟨t, traced, plain⟩ begun ?_ ?_ ?_ ?_⟩
    · rintro _ _ ⟨⟩
      exact ⟨all goes, rfl⟩
    · rwa [map_event_quiet]
    · exact fun noted member => fault?_of_mem_quiet ((List.dropLast_sublist _).subset member)
    · rw [Run.fault?, plain, findSome?_quiet, goes]
      rfl
  | @stopped events d _ stops takes =>
    refine ⟨steps, d, .of_takes ⟨t, traced, plain⟩ begun ?_ ?_ ?_ ?_⟩
    · rintro _ _ ⟨⟩
    · rwa [map_event_quiet]
    · exact fun noted member => fault?_of_mem_quiet ((List.dropLast_sublist _).subset member)
    · rw [Run.fault?, plain, findSome?_quiet, stops]
      rfl
  | @failed events _ taken d _ cut takes =>
    refine ⟨taken, d, .of_takes ⟨t, traced, plain⟩ (cut.trans begun) ?_ ?_ ?_ ?_⟩
    · rintro _ _ ⟨⟩
    · rwa [List.map_append, map_event_quiet]
    · rw [List.dropLast_concat]
      exact fun noted member => fault?_of_mem_quiet member
    · rw [Run.fault?, plain, List.findSome?_append, findSome?_quiet]
      rfl

end

/-- Every reading makes the calls of the steps over one whole, in their order, up to the first call
that fails or to what is wrong with the label. -/
theorem Interpretation.read_replays (limit : UInt32) (label : List UInt8) :
    ∃ whole : Whole, whole.Completes limit label ∧
      ∀ {σ ν γ : Type} (i : Interpretation σ ν γ) (s : σ),
        ∃ (outcome : Except Fault (ν × Nat)) (log : List Noted) (taken : List Step) (d : Desk),
          i.Account limit label whole s outcome log taken d := by
  obtain ⟨outline, fits, resumes, replays⟩ := exists_outline_resuming limit label
  have ends := (Outline.delivered_eq (replays .collecting)).2
  obtain ⟨whole, completes, begun, all⟩ := outline.exists_whole fits resumes ends
  refine ⟨whole, completes, fun i s => ?_⟩
  obtain ⟨outcome, t, log, traced, plain, carried⟩ := outline.replay_carries i s []
  rw [← replays] at traced plain
  rw [← ends] at carried all
  exact ⟨outcome, log, carried.account traced plain begun all⟩

end Clearance
