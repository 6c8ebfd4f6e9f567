import Clearance.Proofs.Widening

/-! Several sets that are held. Each pass over a label puts all of it to the rules, decided or not,
so to stop at the first set that does not open loses no fault. What is left is a conjunction: order
and repetition are of no account, and neither is a set that holds more than another one. -/
namespace Clearance

variable {σ : Type} {answer : String → Charset → Bool}

/-- A test of sets that no set fails if it holds more than one that passes. -/
def Held.Upward (opens : Held → Bool) : Prop :=
  ∀ {held more : Held}, held.Within more → opens held = true → opens more = true

/-- Where one set passes a test, one that holds more can be tried beside it. -/
theorem Held.Upward.all_insert {opens : Held → Bool} (upward : Upward opens)
    {before after : List Held} {held more : Held} (member : held ∈ before ++ after)
    (within : held.Within more) :
    (before ++ more :: after).all opens = (before ++ after).all opens := by
  rw [List.perm_middle.all_eq, List.all_cons]
  cases all : (before ++ after).all opens with
  | false => exact Bool.and_false _
  | true => rw [upward within (List.all_eq_true.mp all held member), Bool.and_true]

namespace Held

theorem tried_perm {sets other : List Held} (perm : sets.Perm other) :
    (tried sets).Perm (tried other) := by
  cases sets with
  | nil => rw [List.nil_perm.mp perm]
  | cons first rest =>
    cases other with
    | nil => exact absurd perm.symm (List.nil_perm.not.mpr (List.cons_ne_nil _ _))
    | cons => exact perm

theorem tried_of_mem {sets : List Held} {held : Held} (member : held ∈ sets) :
    tried sets = sets := by
  cases sets with
  | nil => cases member
  | cons => rfl

end Held

open Grammar

namespace Rules

variable {rules : Rules σ} {label : List UInt8} {s t : σ}

/-- Each of the sets that are tried opens a label that passes, or does not, whatever the others. -/
theorem exists_opens (steady : rules.policy.Steady answer)
    (valid : (rules.validate label).on s = (.ok (), t)) : ∃ opens : Held → Bool,
      Held.Upward opens ∧ ∀ sets : List Held,
        Run.Yields ((rules.gateForAll sets).decide label) ((Held.tried sets).all opens) := by
  rcases rules.validate_ok valid with rfl | ⟨x, rfl, within, audited⟩
  · refine ⟨fun _ => true, fun _ _ => rfl, fun sets => ?_⟩
    rw [List.all_eq_true.mpr fun _ _ => rfl]
    exact Gate.decide_empty (Grants.judges_ofSets sets)
  · have allowed := allowed_of_audit steady audited
    refine ⟨fun held => (x.tree 0).holds held.contains, fun wider => Tree.holds_mono wider _,
      fun sets => ?_⟩
    have decided : Run.Yields ((rules.gateForAll sets).decide x.text) _ :=
      Gate.decide_yields steady (Grants.judges_ofSets sets) within allowed
    rwa [List.all_map] at decided

/-- Two lists of sets have one outcome for a label, from whatever states. -/
def SameOutcome (rules : Rules σ) (label : List UInt8) (sets other : List Held) : Prop :=
  ∀ s t, (((rules.gateForAll sets).decide label).on s).1 =
    (((rules.gateForAll other).decide label).on t).1

/-- Nothing but the conjunction of the sets that are tried makes a difference. -/
theorem sameOutcome_of_all (steady : rules.policy.Steady answer) (label : List UInt8)
    {sets other : List Held} (same : ∀ {opens : Held → Bool}, Held.Upward opens →
      (Held.tried sets).all opens = (Held.tried other).all opens) :
    rules.SameOutcome label sets other := by
  intro s t
  have first := (endAlike steady label s).gateForAll sets
  have second := (endAlike steady label t).gateForAll other
  cases verdict : rules.verdict? answer label with
  | some fault =>
    rw [verdict] at first second
    obtain ⟨_, failed⟩ := Run.fault?_eq_some.mp first
    obtain ⟨_, failed'⟩ := Run.fault?_eq_some.mp second
    rw [failed, failed']
  | none =>
    have checked := (fault?_validate steady label s).trans verdict
    obtain ⟨_, _, valid⟩ := Run.fault?_eq_none.mp checked
    obtain ⟨opens, upward, conjoined⟩ := exists_opens steady valid
    obtain ⟨_, decided⟩ := conjoined sets s
    obtain ⟨_, decided'⟩ := conjoined other t
    rw [decided, decided', same upward]

/-- What it is to try several sets on a label, from whatever states: to conjoin what each of them
alone comes to. -/
structure Conjoins (rules : Rules σ) (label : List UInt8) : Prop where
  fails {fault : Fault} {s t : σ} (failed : (rules.validate label).on s = (.error fault, t))
    (sets : List Held) (r : σ) :
    ∃ u, ((rules.gateForAll sets).decide label).on r = (.error fault, u)
  opens {s t : σ} (valid : (rules.validate label).on s = (.ok (), t)) :
    ∃ opens : Held → Bool, (∀ held, Run.Yields ((rules.gate held).decide label) (opens held)) ∧
      ∀ sets : List Held,
        Run.Yields ((rules.gateForAll sets).decide label) ((Held.tried sets).all opens)
  permuted {sets other : List Held} (perm : sets.Perm other) : rules.SameOutcome label sets other
  repeated {before after : List Held} {held : Held} (member : held ∈ before ++ after) :
    rules.SameOutcome label (before ++ after) (before ++ held :: after)
  widened {before after : List Held} {held more : Held} (member : held ∈ before ++ after)
    (within : held.Within more) :
    rules.SameOutcome label (before ++ after) (before ++ more :: after)

/-- To try several sets on a label is to conjoin what each of them alone comes to, and what is wrong
with the label comes first. -/
theorem gateForAll_conjoins (steady : rules.policy.Steady answer) (label : List UInt8) :
    rules.Conjoins label := by
  have widened : ∀ {before after : List Held} {held more : Held}, held ∈ before ++ after →
      held.Within more → rules.SameOutcome label (before ++ after) (before ++ more :: after) := by
    intro before after held more member within
    refine sameOutcome_of_all steady label fun upward => ?_
    have tried : Held.tried (before ++ more :: after) = before ++ more :: after :=
      Held.tried_of_mem (List.mem_append_right _ List.mem_cons_self)
    rw [Held.tried_of_mem member, tried, upward.all_insert member within]
  constructor
  case fails =>
    intro fault s t failed sets r
    have verdict : rules.verdict? answer label = some fault :=
      (fault?_validate steady label s).symm.trans (Run.fault?_eq_some.mpr ⟨t, failed⟩)
    exact Run.fault?_eq_some.mp (((endAlike steady label r).gateForAll sets).trans verdict)
  case opens =>
    intro s t valid
    obtain ⟨opens, _, conjoined⟩ := exists_opens steady valid
    refine ⟨opens, fun held => ?_, conjoined⟩
    have alone := conjoined [held]
    rwa [show (Held.tried [held]).all opens = _ from Bool.and_true _] at alone
  case permuted =>
    exact fun perm => sameOutcome_of_all steady label fun _ => (Held.tried_perm perm).all_eq
  -- A set holds no less than itself.
  case repeated => exact fun {_ _ held} member => widened member held.within_refl
  case widened => exact widened

/-- By rules that refuse `C`, `A|C` fails for who holds nothing and then `A` as it fails a check,
and `A|B` opens if it opens to each. -/
theorem gateForAll_conjoins_refused :
    let answer : String → Charset → Bool := fun value _ => value != "C"
    let rules : Rules Nat :=
      { policy? := some fun value charset n => (answer value charset, n + 1) }
    let sets := [Held.empty, Held.ofList ["A"]]
    rules.policy.Steady answer ∧ rules.Conjoins (Text.Utf8.bytes "A|C") ∧
      rules.Conjoins (Text.Utf8.bytes "A|B") ∧
      (∃ t, ((rules.gateForAll sets).decide (Text.Utf8.bytes "A|C")).on 0 =
        (.error (.refused "C"), t)) ∧
      rules.SameOutcome (Text.Utf8.bytes "A|B") sets
        [Held.ofList ["B"], Held.empty, Held.ofList ["A"]] ∧
      Run.Yields ((rules.gateForAll sets).decide (Text.Utf8.bytes "A|B")) false := by
  intro answer rules sets
  have steady : rules.policy.Steady answer := fun _ _ _ => rfl
  let a : Word := .spell "A" (by decide)
  let b : Word := .spell "B" (by decide)
  let c : Word := .spell "C" (by decide)
  let refusedLabel : Expression := .group .or (.word a) (.last (.word c))
  let label : Expression := .group .or (.word a) (.last (.word b))
  have refused : Text.Utf8.bytes "A|C" = refusedLabel.text := by decide
  have text : Text.Utf8.bytes "A|B" = label.text := by decide
  have failed : (rules.validate refusedLabel.text).on 0 = (.error (.refused "C"), 2) := by
    rw [rules.validate_text (by decide)]
    show Run.on (audit rules.policy [a, c]) 0 = _
    simp only [audit, Word.audit, Word.accept_of_value (Word.value?_spell _ _), a, c]
    rfl
  have allowed : ∀ w ∈ label.words, w.Allowed answer := by
    show ∀ w ∈ [a, b], _
    rw [List.forall_mem_cons, List.forall_mem_singleton]
    exact ⟨Word.allowed_spell _ rfl, Word.allowed_spell _ rfl⟩
  obtain ⟨t, valid⟩ := rules.validate_yields steady (by decide) allowed 0
  rw [← refused] at failed
  rw [← text] at valid
  have first := gateForAll_conjoins steady (Text.Utf8.bytes "A|C")
  have second := gateForAll_conjoins steady (Text.Utf8.bytes "A|B")
  obtain ⟨opens, alone, conjoined⟩ := second.opens valid
  have closed : opens Held.empty = false := by
    have decided : Run.Yields ((rules.gate .empty).decide label.text) _ :=
      Gate.decide_yields steady (Grants.judges_ofSets [.empty]) (by decide) allowed
    rw [← text] at decided
    obtain ⟨_, ends⟩ := alone .empty 0
    exact decided.eq_of_ok ends
  have both : Run.Yields _ (opens .empty && _) := conjoined sets
  rw [closed, Bool.false_and] at both
  have wider : rules.SameOutcome _ ([] ++ sets) ([] ++ Held.ofList ["B"] :: sets) :=
    second.widened List.mem_cons_self fun _ holds => by cases holds
  exact ⟨steady, first, second, first.fails failed sets 0, wider, both⟩

end Rules

end Clearance
