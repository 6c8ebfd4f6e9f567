import Clearance.Gate
import Clearance.Proofs.Steady

/-! What a label means to someone who holds a set of authorizations, said of its tree with every
leaf looked at. The decision that is made while a label is read builds no tree, passes over the
members of decided groups and compares bodies as they stand, and comes to the same. -/
namespace Clearance

variable {σ : Type}

namespace Connective

/-- The value of a group, from those of all its members. -/
def value : Connective → List Bool → Bool
  | .and, bs => bs.all id
  | .or, bs => bs.any id

theorem value_nil (op : Connective) : op.value [] = op.unit := by
  cases op <;> rfl

theorem value_cons (op : Connective) (b : Bool) (bs : List Bool) :
    op.value (b :: bs) = op.join b (op.value bs) := by
  cases op <;> rfl

theorem value_singleton (op : Connective) (b : Bool) : op.value [b] = b := by
  cases op <;> cases b <;> rfl

/-- A member that is passed over counts as false, and its group absorbs that: a decided group
keeps its value, and a group in a decided one has none. -/
theorem join_passed_over (op : Connective) (live sofar member : Bool) :
    op.join (live && sofar) ((live && op.undecided (live && sofar)) && member) =
      (live && op.join sofar member) := by
  cases op <;> cases live <;> cases sofar <;> cases member <;> rfl

end Connective

namespace Tree

mutual

/-- Whether a tree opens, where `held` says of each value whether it is held. -/
def holds (held : String → Bool) : Tree → Bool
  | .empty => true
  | .leaf _ _ value => held value
  | .group op _ members => op.value (allHold held members)

def allHold (held : String → Bool) : List Tree → List Bool
  | [] => []
  | t :: ts => t.holds held :: allHold held ts

end

end Tree

/-- Values are escaped apart, so the body of a value is held exactly if the value is. -/
theorem Held.contains_bodies (held : Held) (v : String) :
    held.bodies.contains (Escape.escape (Text.Utf8.bytes v)) = held.contains v := by
  rw [Bool.eq_iff_iff, contains, bodies, List.contains_iff_mem, List.contains_iff_mem, List.mem_map]
  constructor
  · rintro ⟨w, member, spelled⟩
    rwa [← Text.Utf8.bytes_injective (Escape.escape_injective spelled)]
  · exact fun member => ⟨v, member, rfl⟩

namespace Grammar

variable {policy : Policy σ} {answer : String → Charset → Bool} {lookup : Lookup σ}
  {held : String → Bool}

/-- A lookup that answers for each of the words by its value, in every state. -/
def Finds (lookup : Lookup σ) (held : String → Bool) (w : Word) : Prop :=
  Run.Yields (liftM (lookup w.value w.body) : Run σ Bool) (held w.value)

mutual

/-- Where no group around it is decided an expression yields its value, and false otherwise. -/
theorem Expression.replay_deciding (steady : policy.Steady answer) : ∀ (x : Expression)
    (live : Bool) (offset : Nat), (∀ w ∈ x.words, w.Allowed answer) →
      (∀ w ∈ x.words, Finds lookup held w) →
      Run.Yields (x.replay (.deciding policy lookup) live offset)
        (live && (x.tree offset).holds held)
  | .single t, live, offset, allowed, finds => t.replay_deciding steady live offset allowed finds
  | .group op first others, live, offset, allowed, finds => by
    obtain ⟨firstAllowed, othersAllowed⟩ := List.forall_mem_append.mp allowed
    obtain ⟨firstFinds, othersFinds⟩ := List.forall_mem_append.mp finds
    have begun := first.replay_deciding steady live offset firstAllowed firstFinds
    have ended := others.replay_deciding steady op live (offset + first.text.length)
      ((first.tree offset).holds held) othersAllowed othersFinds
    rw [Expression.tree, Tree.holds, Tree.allHold, Connective.value_cons]
    exact begun.bind ((Run.yields_pure _).bind (ended.bind (Run.yields_pure _)))

theorem Term.replay_deciding (steady : policy.Steady answer) : ∀ (t : Term)
    (live : Bool) (offset : Nat), (∀ w ∈ t.words, w.Allowed answer) →
      (∀ w ∈ t.words, Finds lookup held w) →
      Run.Yields (t.replay (.deciding policy lookup) live offset)
        (live && (t.tree offset).holds held)
  | .word w, live, offset, allowed, finds => by
    have accepted := (allowed w List.mem_cons_self).accept_yields steady offset
    refine accepted.bind ?_
    cases live with
    | true => exact finds w List.mem_cons_self
    | false => exact Run.yields_pure false
  | .enclosed x, live, offset, allowed, finds =>
    x.replay_deciding steady live (offset + 1) allowed finds

/-- The invariant of a group: it has come to the value of its members so far, or to false where
a group around it is decided. -/
theorem Members.replay_deciding (steady : policy.Steady answer) (op : Connective) :
    ∀ (ms : Members) (live : Bool) (offset : Nat) (sofar : Bool),
      (∀ w ∈ ms.words, w.Allowed answer) → (∀ w ∈ ms.words, Finds lookup held w) →
      Run.Yields (ms.replay (.deciding policy lookup) live offset (op, live && sofar))
        (op, live && op.join sofar (op.value (Tree.allHold held (ms.trees offset))))
  | .last t, live, offset, sofar, allowed, finds => by
    have member := t.replay_deciding steady (live && op.undecided (live && sofar)) (offset + 1)
      allowed finds
    rw [Members.replay_last rfl, Members.trees, Tree.allHold, Tree.allHold,
      Connective.value_singleton, ← op.join_passed_over]
    exact member.bind (Run.yields_pure _)
  | .more t others, live, offset, sofar, allowed, finds => by
    obtain ⟨hereAllowed, othersAllowed⟩ := List.forall_mem_append.mp allowed
    obtain ⟨hereFinds, othersFinds⟩ := List.forall_mem_append.mp finds
    have member := t.replay_deciding steady (live && op.undecided (live && sofar)) (offset + 1)
      hereAllowed hereFinds
    have later := others.replay_deciding steady op live (offset + 1 + t.text.length)
      (op.join sofar ((t.tree (offset + 1)).holds held)) othersAllowed othersFinds
    rw [Members.replay_more, Members.replay_last rfl, bind_assoc, Members.trees, Tree.allHold,
      Connective.value_cons, ← op.join_assoc]
    rw [← op.join_passed_over] at later
    exact member.bind ((Run.yields_pure _).bind later)

end

/-- To look up the body of a word among the bodies of a set is to look up its value. -/
theorem finds_inSet (all : Held) {w : Word} (text : w.value? = some w.value) :
    Finds (σ := σ) (.inSet all.bodies) all.contains w := by
  have same : all.bodies.contains w.body = all.contains w.value := by
    rw [w.body_eq text, all.contains_bodies]
  intro s
  exact ⟨s, by rw [Run.on_lift, Lookup.inSet, same]; rfl⟩

end Grammar

open Grammar

/-- A label that passes has a tree, and the decision that is made while reading the label is the
value of that tree. -/
theorem Rules.gate_decides_tree {rules : Rules σ} {answer : String → Charset → Bool}
    (steady : rules.policy.Steady answer) (held : Held) {label : List UInt8} {s t : σ}
    (valid : (rules.validate label).on s = (.ok (), t)) :
    ∃ tree : Tree, tree.IsOf label ∧ Run.Yields (rules.parse label) tree ∧
      Run.Yields ((rules.gate held).decide label) (tree.holds held.contains) := by
  rcases rules.validate_ok valid with rfl | ⟨x, rfl, within, passed⟩
  · exact ⟨.empty, Or.inl ⟨rfl, rfl⟩, fun s => ⟨s, rfl⟩, fun s => ⟨s, rfl⟩⟩
  · have allowed := allowed_of_audit steady passed
    have isOf : (x.tree 0).IsOf x.text :=
      Or.inr ⟨x, rfl, rfl, fun w member => (allowed w member).text⟩
    refine ⟨x.tree 0, isOf, rules.parse_yields steady within allowed, ?_⟩
    have once : (rules.gate held).decide x.text =
        x.replay (.deciding rules.policy (.inSet held.bodies)) true 0 >>= fun opens =>
          if opens then pure true else pure false := by
      rw [← read_text x within]
      rfl
    have decided := x.replay_deciding steady true 0 allowed fun w member =>
      finds_inSet held (allowed w member).text
    rw [once]
    refine decided.bind ?_
    cases (x.tree 0).holds held.contains <;> exact Run.yields_pure _

/-- The label `A&("\""|B)` opens to who holds `A` and `"`, for whom `B` is passed over, and not to
who holds `"` and `B`. -/
theorem Rules.gate_decides_tree_quote :
    let rules : Rules Nat := { policy? := some fun value _ n => (value ≠ "C", n + 1) }
    let label : List UInt8 := [0x41, 0x26, 0x28, 0x22, 0x5C, 0x22, 0x22, 0x7C, 0x42, 0x29]
    let tree : Tree := .group .and ⟨0, 10⟩
      [.leaf ⟨0, 1⟩ false "A", .group .or ⟨3, 9⟩ [.leaf ⟨3, 7⟩ true "\"", .leaf ⟨8, 9⟩ false "B"]]
    rules.policy.Steady (fun value _ => value ≠ "C") ∧
      (∃ t, (rules.validate label).on 0 = (.ok (), t)) ∧
      tree.IsOf label ∧ Run.Yields (rules.parse label) tree ∧
      Run.Yields ((rules.gate (.ofList ["A", "\""])).decide label) true ∧
      Run.Yields ((rules.gate (.ofList ["\"", "B"])).decide label) false := by
  intro rules label tree
  have steady : rules.policy.Steady (fun value _ => value ≠ "C") := fun _ _ _ => rfl
  let a : Word := .spell "A" (by decide)
  let quote : Word := .spell "\"" (by decide)
  let b : Word := .spell "B" (by decide)
  let x : Expression := .group .and (.word a)
    (.last (.enclosed (.group .or (.word quote) (.last (.word b)))))
  have text : x.text = label := by decide
  have allowed : ∀ w ∈ x.words, w.Allowed (fun value _ => value ≠ "C") := by
    show ∀ w ∈ [a, quote, b], _
    rw [List.forall_mem_cons, List.forall_mem_cons, List.forall_mem_singleton]
    exact ⟨Word.allowed_spell _ rfl, Word.allowed_spell _ rfl, Word.allowed_spell _ rfl⟩
  have same : x.tree 0 = tree := by
    show Tree.group .and ⟨0, 10⟩ [.leaf ⟨0, 1⟩ false a.value, .group .or ⟨3, 9⟩
      [.leaf ⟨3, 7⟩ true quote.value, .leaf ⟨8, 9⟩ false b.value]] = tree
    rw [Word.value_spell, Word.value_spell, Word.value_spell]
  have own : tree.IsOf label := Or.inr ⟨x, text, same, fun w member => (allowed w member).text⟩
  obtain ⟨t, valid⟩ := rules.validate_yields steady (by decide) allowed 0
  rw [text] at valid
  obtain ⟨_, isOf, parsed, opens⟩ := Rules.gate_decides_tree steady (.ofList ["A", "\""]) valid
  obtain ⟨_, isOf', _, shut⟩ := Rules.gate_decides_tree steady (.ofList ["\"", "B"]) valid
  obtain rfl := isOf.unique own
  obtain rfl := isOf'.unique own
  exact ⟨steady, ⟨t, valid⟩, own, parsed, opens, shut⟩

end Clearance
