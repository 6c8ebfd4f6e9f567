import Clearance.Proofs.Decisions
import Clearance.Proofs.Renormalizing

/-! Normal forms mean the same. Order, repetition and bracketing are of no account to the value of
a term, whatever is held, so a label and its normal form open to the same people. -/
namespace Clearance

variable {σ : Type}

namespace Connective

theorem join_comm (op : Connective) (a b : Bool) : op.join a b = op.join b a := by
  cases op
  · exact Bool.and_comm a b
  · exact Bool.or_comm a b

theorem join_self (op : Connective) (a : Bool) : op.join a a = a := by
  cases op
  · exact Bool.and_self a
  · exact Bool.or_self a

end Connective

namespace Binary

/-- The value of a term, where `held` says of each atom whether it is held. -/
def value (held : String → Bool) : Binary → Bool
  | .atom v => held v
  | .join op a b => op.join (a.value held) (b.value held)

/-- The laws keep the value. -/
theorem Same.value_eq {a b : Binary} (same : Same a b) (held : String → Bool) :
    a.value held = b.value held := by
  induction same with
  | refl _ => rfl
  | symm _ ih => exact ih.symm
  | trans _ _ ab bc => exact ab.trans bc
  | join op _ _ left right => rw [value, value, left, right]
  | assoc op a b c => exact op.join_assoc _ _ _
  | comm op a b => exact op.join_comm _ _
  | idem op a => exact op.join_self _

end Binary

namespace Grammar

variable (held : String → Bool)

mutual

/-- The tree of an expression and its term have one value. -/
theorem Expression.holds_tree : ∀ (x : Expression) (offset : Nat),
    (x.tree offset).holds held = x.binary.value held
  | .single t, offset => t.holds_tree offset
  | .group op first others, offset => by
    rw [Expression.tree, Tree.holds, Tree.allHold, op.value_cons, first.holds_tree offset,
      Expression.binary, others.value_fold op first.binary (offset + first.text.length)]

theorem Term.holds_tree : ∀ (t : Term) (offset : Nat),
    (t.tree offset).holds held = t.binary.value held
  | .word _, _ => rfl
  | .enclosed x, offset => x.holds_tree (offset + 1)

theorem Members.value_fold (op : Connective) : ∀ (ms : Members) (sofar : Binary) (offset : Nat),
    (ms.fold op sofar).value held =
      op.join (sofar.value held) (op.value (Tree.allHold held (ms.trees offset)))
  | .last t, sofar, offset => by
    rw [Members.fold, Binary.value, Members.trees, Tree.allHold, Tree.allHold, op.value_singleton,
      t.holds_tree]
  | .more t others, sofar, offset => by
    rw [Members.fold, others.value_fold op _ (offset + 1 + t.text.length), Binary.value,
      Members.trees, Tree.allHold, op.value_cons, t.holds_tree, op.join_assoc]

end

/-- Expressions of which one is the normal form of the other have one value. -/
theorem Expression.holds_of_normal {x y : Expression} (normal : y.formula = x.formula.normal)
    (offset offset' : Nat) : (y.tree offset').holds held = (x.tree offset).holds held := by
  have canonical : x.formula.normal.Canonical := x.normal_formula ▸ x.binary.canonical_normal
  have settled : y.binary.normal = x.binary.normal := by
    rw [← y.normal_formula, normal, canonical.normal_eq, x.normal_formula]
  rw [x.holds_tree, y.holds_tree]
  exact (Binary.normal_eq_iff.mp settled).value_eq held

end Grammar

open Grammar

namespace Rules

variable {rules : Rules σ} {answer : String → Charset → Bool}

/-- The normal form of a label that passes has a derivation by the same rules. -/
theorem exists_normal_expression (relaxed : Relaxed answer) {x : Expression}
    (within : x.depth ≤ rules.limit.toNat) (allowed : ∀ w ∈ x.words, w.Allowed answer) :
    ∃ y : Expression, y.text = Text.Utf8.bytes x.formula.normal.written ∧
      y.formula = x.formula.normal ∧ y.depth ≤ rules.limit.toNat ∧
      ∀ w ∈ y.words, w.Allowed answer := by
  have writable := Expression.normal_writable fun w member => (allowed w member).text
  obtain ⟨y, text, same, spelled⟩ := Formula.exists_expression writable
  refine ⟨y, text, same, ?_, Expression.words_allowed relaxed same spelled allowed⟩
  have lower := Nat.le_trans x.formula.height_normal_le x.height_formula_le
  rw [← nesting_text, text, Formula.nesting_written writable]
  omega

/-- Gates that differ in nothing but what they read decide a label and its normal form alike. -/
theorem decide_alike (steady : rules.policy.Steady answer) (relaxed : Relaxed answer)
    {label : List UInt8} {s t : σ} (valid : (rules.validate label).on s = (.ok (), t)) :
    ∃ normal : String, Run.Yields (rules.normalize label) normal ∧
      ∀ {grants : Grants σ} {tests : List (String → Bool)}, grants.Judges tests →
        ∃ opens : Bool, Run.Yields (Gate.decide ⟨rules, grants⟩ label) opens ∧
          Run.Yields (Gate.decide ⟨rules, grants⟩ (Text.Utf8.bytes normal)) opens := by
  rcases rules.validate_ok valid with rfl | ⟨x, rfl, within, passed⟩
  · exact ⟨"", fun s => ⟨s, rfl⟩, fun judges =>
      ⟨true, Gate.decide_empty judges, Gate.decide_empty judges⟩⟩
  have allowed := allowed_of_audit steady passed
  obtain ⟨y, text, same, deep, allowedAgain⟩ := rules.exists_normal_expression relaxed within allowed
  refine ⟨_, rules.normalize_yields steady within allowed, fun {grants tests} judges => ?_⟩
  let gate : Gate σ := ⟨rules, grants⟩
  have before := gate.decide_yields steady judges within allowed
  have after := gate.decide_yields steady judges deep allowedAgain
  simp only [Expression.holds_of_normal _ same 0 0, text] at after
  exact ⟨_, before, after⟩

/-- A label that passes and its normal form are both decided, and alike, whatever sets are held and
whatever predicate an authority answers by. -/
theorem decide_normal_form (steady : rules.policy.Steady answer) (relaxed : Relaxed answer)
    {label : List UInt8} {s t : σ} (valid : (rules.validate label).on s = (.ok (), t)) :
    ∃ normal : String, Run.Yields (rules.normalize label) normal ∧
      (∀ sets : List Held, ∃ opens : Bool,
        Run.Yields ((rules.gateForAll sets).decide label) opens ∧
        Run.Yields ((rules.gateForAll sets).decide (Text.Utf8.bytes normal)) opens) ∧
      ∀ (ask : Authority σ) (held : String → Bool), ask.Steady held → ∃ opens : Bool,
        Run.Yields ((rules.gateOf ask).decide label) opens ∧
        Run.Yields ((rules.gateOf ask).decide (Text.Utf8.bytes normal)) opens := by
  obtain ⟨normal, normalizes, alike⟩ := rules.decide_alike steady relaxed valid
  exact ⟨normal, normalizes, fun sets => alike (Grants.judges_ofSets sets),
    fun _ _ asks => alike (.authority asks)⟩

/-- The label `A&("B"&(A))&(C|C)`, by rules that refuse `D` and count what they are asked. -/
theorem decide_normal_form_regrouped :
    let answer : String → Charset → Bool := fun value _ => value ≠ "D"
    let rules : Rules Nat :=
      { limit := 2, policy? := some fun value charset n => (answer value charset, n + 1) }
    let label : List UInt8 := Text.Utf8.bytes "A&(\"B\"&(A))&(C|C)"
    rules.policy.Steady answer ∧ Relaxed answer ∧
      (∃ t, (rules.validate label).on 0 = (.ok (), t)) ∧
      ∃ normal : String, Run.Yields (rules.normalize label) normal ∧
        (∀ sets : List Held, ∃ opens : Bool,
          Run.Yields ((rules.gateForAll sets).decide label) opens ∧
          Run.Yields ((rules.gateForAll sets).decide (Text.Utf8.bytes normal)) opens) ∧
        ∀ (ask : Authority Nat) (held : String → Bool), ask.Steady held → ∃ opens : Bool,
          Run.Yields ((rules.gateOf ask).decide label) opens ∧
          Run.Yields ((rules.gateOf ask).decide (Text.Utf8.bytes normal)) opens := by
  intro answer rules label
  have steady : rules.policy.Steady answer := fun _ _ _ => rfl
  have relaxed : Relaxed answer := fun _ _ _ allowed => allowed
  let a : Word := .spell "A" (by decide)
  let b : Word := .quoted (Text.Utf8.bytes "B") (by decide) (.plain (by decide) .nil)
  let c : Word := .spell "C" (by decide)
  let x : Expression := .group .and (.word a)
    (.more (.enclosed (.group .and (.word b) (.last (.enclosed (.single (.word a))))))
      (.last (.enclosed (.group .or (.word c) (.last (.word c))))))
  have text : x.text = label := by decide
  have allowed : ∀ w ∈ [a, b, a, c, c], w.Allowed answer := by
    have value : b.value? = some "B" := Text.Utf8.decode?_eq_some.mpr (by decide)
    simp only [List.forall_mem_cons]
    exact ⟨Word.allowed_spell _ rfl, Word.allowed_of_value value rfl, Word.allowed_spell _ rfl,
      Word.allowed_spell _ rfl, Word.allowed_spell _ rfl, nofun⟩
  obtain ⟨t, valid⟩ := rules.validate_yields (x := x) steady (by decide) allowed 0
  rw [text] at valid
  exact ⟨steady, relaxed, ⟨t, valid⟩, rules.decide_normal_form steady relaxed valid⟩

end Rules

end Clearance
