import Clearance.Proofs.Decisions
import Clearance.Proofs.Limits
import Clearance.Proofs.Verdict
import Mathlib.Data.List.Forall2

/-! Holding more. Who holds less and who holds more are asked about different tokens of a label,
since each decision passes over the members of the groups that are decided for it. But each comes
to the value of the tree of the label, and no part of a tree loses its value when more is held. -/
namespace Clearance

variable {σ : Type} {answer : String → Charset → Bool}

/-- Whatever the first test counts as held, the second does too. -/
def Widens (held more : String → Bool) : Prop := ∀ v, held v = true → more v = true

/-- Whatever is in the first set is in the second. -/
def Held.Within (held more : Held) : Prop := Widens held.contains more.contains

theorem Held.within_refl (held : Held) : held.Within held := fun _ holds => holds

theorem Held.within_insert (held : Held) (v : String) : held.Within (held.insert v) := by
  intro w holds
  rw [contains, List.contains_iff_mem] at holds
  exact List.contains_iff_mem.mpr (mem_insert.mpr (Or.inr holds))

theorem Held.tried_within {sets more : List Held} (within : List.Forall₂ Within sets more) :
    List.Forall₂ Within (tried sets) (tried more) := by
  cases within with
  | nil => exact .cons (within_refl _) .nil
  | cons first rest => exact .cons first rest

namespace Connective

theorem join_mono (op : Connective) {a b c d : Bool} (first : a = true → c = true)
    (second : b = true → d = true) : op.join a b = true → op.join c d = true := by
  cases op with
  | and =>
    simp only [join, Bool.and_eq_true]
    exact And.imp first second
  | or =>
    simp only [join, Bool.or_eq_true]
    exact Or.imp first second

/-- A group keeps its value when its members keep theirs. -/
theorem value_mono (op : Connective) {bs cs : List Bool}
    (members : List.Forall₂ (fun b c => b = true → c = true) bs cs) :
    op.value bs = true → op.value cs = true := by
  induction members with
  | nil => exact id
  | cons first _ ih =>
    rw [value_cons, value_cons]
    exact op.join_mono first ih

end Connective

namespace Tree

variable {held more : String → Bool}

mutual

theorem holds_mono (wider : Widens held more) : ∀ t : Tree,
    t.holds held = true → t.holds more = true
  | .empty, opens => opens
  | .leaf _ _ value, opens => wider value opens
  | .group op _ members, opens => op.value_mono (allHold_mono wider members) opens

theorem allHold_mono (wider : Widens held more) : ∀ ts : List Tree,
    List.Forall₂ (fun b c => b = true → c = true) (allHold held ts) (allHold more ts)
  | [] => .nil
  | t :: ts => .cons (holds_mono wider t) (allHold_mono wider ts)

end

/-- To try several sets is to join them by `&`. -/
theorem all_holds_mono (t : Tree) {tests wider : List (String → Bool)}
    (widens : List.Forall₂ Widens tests wider) :
    (tests.all fun held => t.holds held) = true → (wider.all fun held => t.holds held) = true := by
  have joined : ∀ tests : List (String → Bool), (tests.all fun held => t.holds held) =
      Connective.and.value (tests.map fun held => t.holds held) := by
    intro tests
    rw [Connective.value, List.all_map]
    rfl
  rw [joined, joined]
  refine Connective.and.value_mono ?_
  rw [List.forall₂_map_left_iff, List.forall₂_map_right_iff]
  exact widens.imp fun _ _ wider => holds_mono wider t

end Tree

theorem Run.Yields.eq_of_ok {α : Type} {x : Run σ α} {a b : α} {s t : σ} (yields : Run.Yields x a)
    (ok : x.on s = (.ok b, t)) : b = a := by
  obtain ⟨u, same⟩ := yields s
  cases ok.symm.trans same
  rfl

open Grammar

namespace Gate

variable {label : List UInt8} {s t : σ} {opens : Bool}

/-- What a gate decides has passed its rules. -/
theorem validate_of_decide (gate : Gate σ) (steady : gate.rules.policy.Steady answer)
    (tries : gate.grants ≠ .sets []) (ok : (gate.decide label).on s = (.ok opens, t)) :
    ∃ u, (gate.rules.validate label).on s = (.ok (), u) := by
  obtain ⟨lookup, first, r, read⟩ := Grants.exists_of_decide tries ok
  have sound : gate.rules.verdict? answer label = none :=
    (Rules.fault?_deciding steady lookup label s).symm.trans
      (Run.fault?_eq_none.mpr ⟨first, r, read⟩)
  obtain ⟨_, u, valid⟩ := Run.fault?_eq_none.mp ((Rules.fault?_validate steady label s).trans sound)
  exact ⟨u, valid⟩

/-- What one gate decides, from whatever state, another decides from every state. What opens to
the one opens to the other. -/
structure WidensTo (narrow wide : Gate σ) : Prop where
  text {label : List UInt8} {s t : σ} {opens : Bool}
    (ok : (narrow.decide label).on s = (.ok opens, t)) :
    ∃ more, Run.Yields (wide.decide label) more ∧ (opens = true → more = true)
  label {x : Label σ} (made : x.Made) {s t : σ} {opens : Bool}
    (ok : (narrow.decideLabel x).on s = (.ok opens, t)) :
    ∃ more, Run.Yields (wide.decideLabel x) more ∧ (opens = true → more = true)

variable {narrow wide : Grants σ} {tests wider : List (String → Bool)}

theorem decide_wider (rules : Rules σ) (steady : rules.policy.Steady answer)
    (tries : narrow ≠ .sets []) (first : narrow.Judges tests) (second : wide.Judges wider)
    (widens : List.Forall₂ Widens tests wider)
    (ok : (Gate.decide ⟨rules, narrow⟩ label).on s = (.ok opens, t)) :
    ∃ more, Run.Yields (Gate.decide ⟨rules, wide⟩ label) more ∧ (opens = true → more = true) := by
  obtain ⟨u, valid⟩ := validate_of_decide ⟨rules, narrow⟩ steady tries ok
  rcases rules.validate_ok valid with rfl | ⟨x, rfl, within, audited⟩
  · exact ⟨true, decide_empty second, fun _ => rfl⟩
  · have allowed := allowed_of_audit steady audited
    have narrowly : Run.Yields (Gate.decide ⟨rules, narrow⟩ x.text) _ :=
      decide_yields steady first within allowed
    have widely : Run.Yields (Gate.decide ⟨rules, wide⟩ x.text) _ :=
      decide_yields steady second within allowed
    rw [narrowly.eq_of_ok ok]
    exact ⟨_, widely, (x.tree 0).all_holds_mono widens⟩

theorem widensTo_of_judges {rules : Rules σ} (steady : rules.policy.Steady answer)
    (tries : narrow ≠ .sets []) (first : narrow.Judges tests) (second : wide.Judges wider)
    (widens : List.Forall₂ Widens tests wider) :
    WidensTo ⟨rules, narrow⟩ ⟨rules, wide⟩ where
  text ok := decide_wider rules steady tries first second widens ok
  label := by
    intro x made s t opens ok
    cases present : x.kept? with
    | none =>
      rw [decideLabel, present] at ok ⊢
      exact decide_wider rules steady tries first second widens ok
    | some kept =>
      -- The kept tree stands for the text, read by the limit that the label was checked by.
      rw [decideLabel_of_kept _ made present] at ok ⊢
      exact decide_wider { rules with limit := x.rules.limit } steady tries first second widens ok

end Gate

namespace Rules

/-- Who holds more is let in wherever who holds less is, and is not refused for it: with one set
in place of another in which it is contained, with an authority that grants what another does, and
with one more value in one of the sets. -/
theorem holding_more_widens {rules : Rules σ} (steady : rules.policy.Steady answer) :
    (∀ sets more : List Held, List.Forall₂ Held.Within sets more →
      (rules.gateForAll sets).WidensTo (rules.gateForAll more)) ∧
    (∀ (ask more : Authority σ) (p q : String → Bool), ask.Steady p → more.Steady q →
      Widens p q → (rules.gateOf ask).WidensTo (rules.gateOf more)) ∧
    (∀ (before after : List Held) (held : Held) (v : String),
      (rules.gateForAll (before ++ held :: after)).WidensTo
        (rules.gateForAll (before ++ held.insert v :: after))) := by
  have bySets : ∀ sets more : List Held, List.Forall₂ Held.Within sets more →
      (rules.gateForAll sets).WidensTo (rules.gateForAll more) := by
    intro sets more within
    refine Gate.widensTo_of_judges steady (Grants.ofSets_ne_sets_nil sets)
      (Grants.judges_ofSets sets) (Grants.judges_ofSets more) ?_
    rw [List.forall₂_map_left_iff, List.forall₂_map_right_iff]
    exact Held.tried_within within
  refine ⟨bySets, fun ask more p q asks asksMore wider => ?_, fun before after held v => ?_⟩
  · exact Gate.widensTo_of_judges steady nofun (.authority asks) (.authority asksMore)
      (.cons wider .nil)
  · have same : ∀ sets : List Held, List.Forall₂ Held.Within sets sets :=
      fun sets => List.forall₂_same.mpr fun set _ => set.within_refl
    exact bySets _ _ (List.rel_append (same before) (.cons (held.within_insert v) (same after)))

/-- Who holds `B` alone is let in by `(A&C)|B` with `C` passed over, and who holds all three with
`B` passed over. -/
theorem holding_more_widens_passed_over :
    let rules : Rules Nat := { policy? := some fun _ _ n => (true, n + 1) }
    let sets := [Held.ofList ["B"], Held.ofList ["A", "B"]]
    let more := [Held.ofList ["A", "B", "C"], Held.ofList ["A", "B"]]
    let ask : Authority Nat := fun value n => (value == "B", n + 1)
    let asked : Authority Nat := fun value n => (value != "D", n + 2)
    let label := Text.Utf8.bytes "(A&C)|B"
    rules.policy.Steady (fun _ _ => true) ∧ List.Forall₂ Held.Within sets more ∧
      (∃ t, ((rules.gateForAll sets).decide label).on 0 = (.ok true, t)) ∧
      Run.Yields ((rules.gateForAll more).decide label) true ∧
      ask.Steady (· == "B") ∧ asked.Steady (· != "D") ∧ Widens (· == "B") (· != "D") ∧
      (rules.gateOf ask).WidensTo (rules.gateOf asked) := by
  intro rules sets more ask asked label
  have steady : rules.policy.Steady (fun _ _ => true) := fun _ _ _ => rfl
  have values : (Held.ofList ["B"]).values = ["B"] ∧
      (Held.ofList ["A", "B", "C"]).values = ["A", "B", "C"] := by decide
  have first : Held.Within (Held.ofList ["B"]) (Held.ofList ["A", "B", "C"]) := by
    intro v holds
    rw [Held.contains, values.1, List.contains_iff_mem, List.mem_singleton] at holds
    rw [holds, Held.contains, values.2]
    rfl
  have within : List.Forall₂ Held.Within sets more := .cons first (.cons (Held.within_refl _) .nil)
  let a : Word := .spell "A" (by decide)
  let b : Word := .spell "B" (by decide)
  let c : Word := .spell "C" (by decide)
  let x : Expression := .group .or (.enclosed (.group .and (.word a) (.last (.word c))))
    (.last (.word b))
  have text : label = x.text := by decide
  have allowed : ∀ w ∈ [a, c, b], w.Allowed (fun _ _ => true) := by
    rw [List.forall_mem_cons, List.forall_mem_cons, List.forall_mem_singleton]
    exact ⟨Word.allowed_spell _ rfl, Word.allowed_spell _ rfl, Word.allowed_spell _ rfl⟩
  have shallow : x.depth ≤ rules.limit.toNat := by decide
  have decided : Run.Yields ((rules.gateForAll sets).decide x.text) _ :=
    Gate.decide_yields steady (Grants.judges_ofSets sets) shallow allowed
  have holds : ∀ held, (x.tree 0).holds held =
      Connective.or.value [Connective.and.value [held "A", held "C"], held "B"] := by
    intro held
    show Connective.or.value [Connective.and.value [held a.value, held c.value], held b.value] = _
    rw [Word.value_spell, Word.value_spell, Word.value_spell]
  have each : (((Held.tried sets).map Held.contains).all fun held => Connective.or.value
      [Connective.and.value [held "A", held "C"], held "B"]) = true := by decide
  simp only [holds, each, ← text] at decided
  obtain ⟨t, opens⟩ := decided 0
  obtain ⟨widenSets, widenAuthority, _⟩ := holding_more_widens steady
  obtain ⟨opensMore, yields, kept⟩ := (widenSets sets more within).text opens
  rw [kept rfl] at yields
  have wider : Widens (· == "B") (· != "D") := by
    intro v same
    rw [eq_of_beq same]
    rfl
  exact ⟨steady, within, ⟨t, opens⟩, yields, fun _ _ => rfl, fun _ _ => rfl, wider,
    widenAuthority ask asked _ _ (fun _ _ => rfl) (fun _ _ => rfl) wider⟩

end Rules

end Clearance
