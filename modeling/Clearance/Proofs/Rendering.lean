import Clearance.Proofs.Steady
import Clearance.Proofs.Writing

/-! Formulas survive being written. In whatever way a formula is written, with its values quoted
as they need, a parser that lets every value pass finds that formula and no other. -/
namespace Clearance

variable {σ : Type}

namespace Tree

mutual

/-- Whether a tree shows a formula: leaf for value and group for group, with the same connectives,
and with as many members in the same order. -/
def Shows : Tree → Formula → Prop
  | .leaf _ _ value, .atom v => value = v
  | .group op _ members, .group op' ms => op = op' ∧ AllShow members ms
  | .empty, _ | .leaf _ _ _, .group _ _ | .group _ _ _, .atom _ => False

def AllShow : List Tree → List Formula → Prop
  | [], [] => True
  | t :: ts, m :: ms => t.Shows m ∧ AllShow ts ms
  | [], _ :: _ | _ :: _, [] => False

end

end Tree

namespace Grammar

mutual

theorem Expression.shows_tree : ∀ (x : Expression) (offset : Nat), (x.tree offset).Shows x.formula
  | .single t, offset => t.shows_tree offset
  | .group _ first others, offset =>
    ⟨rfl, first.shows_tree offset, others.show_trees (offset + first.text.length)⟩

theorem Term.shows_tree : ∀ (t : Term) (offset : Nat), (t.tree offset).Shows t.formula
  | .word _, _ => rfl
  | .enclosed x, offset => x.shows_tree (offset + 1)

theorem Members.show_trees : ∀ (ms : Members) (offset : Nat),
    Tree.AllShow (ms.trees offset) ms.formulas
  | .last t, offset => ⟨t.shows_tree (offset + 1), trivial⟩
  | .more t others, offset =>
    ⟨t.shows_tree (offset + 1), others.show_trees (offset + 1 + t.text.length)⟩

end

theorem Word.Spelled.allowed {w : Word} (spelled : w.Spelled) :
    w.Allowed (fun _ _ => true) := by
  obtain ⟨v, nonempty, rfl⟩ := spelled
  exact Word.allowed_spell nonempty rfl

end Grammar

open Grammar

/-- Rules that allow every value read each rendering of a formula as a tree that shows it. -/
theorem Rules.parse_rendering {rules : Rules σ}
    (lenient : rules.policy.Steady fun _ _ => true) {f : Formula} {text : String}
    (rendering : f.Rendering text.toList)
    (within : nesting (Text.Utf8.bytes text) ≤ rules.limit.toNat) :
    ∃ tree : Tree, Run.Yields (rules.parse (Text.Utf8.bytes text)) tree ∧ tree.Shows f := by
  obtain ⟨x, same, rfl, spelled⟩ := rendering.exists_expression
  have bytes : Text.Utf8.bytes text = x.text := same.symm
  rw [bytes, nesting_text] at within
  rw [bytes]
  refine ⟨x.tree 0, rules.parse_yields lenient within fun w member => ?_, x.shows_tree 0⟩
  exact (spelled w member).allowed

/-- The label `("a\"&(\\")&(("é"|b))`, which has a pair of parentheses more than it needs around
each of its members. -/
theorem Rules.parse_rendering_quotes :
    let rules : Rules Nat := { limit := 2, policy? := some fun _ _ n => (true, n + 1) }
    let f : Formula := .group .and [.atom "a\"&(\\", .group .or [.atom "é", .atom "b"]]
    let text := "(\"a\\\"&(\\\\\")&((\"é\"|b))"
    rules.policy.Steady (fun _ _ => true) ∧ f.Rendering text.toList ∧
      nesting (Text.Utf8.bytes text) ≤ rules.limit.toNat ∧
      ∃ tree : Tree, Run.Yields (rules.parse (Text.Utf8.bytes text)) tree ∧ tree.Shows f := by
  intro rules f text
  have steady : rules.policy.Steady (fun _ _ => true) := fun _ _ _ => rfl
  have quoted : Formula.MemberRendering (.atom "é") "\"é\"".toList := .atom rfl
  have bare : Formula.MemberRendering (.atom "b") "b".toList := .atom rfl
  have marks : Formula.Rendering (.atom "a\"&(\\") "\"a\\\"&(\\\\\"".toList := .atom rfl
  have either : Formula.Rendering (.group .or [.atom "é", .atom "b"])
      ("\"é\"".toList ++ '|' :: "b".toList) :=
    .group (Nat.le_refl 2) (.more quoted (.last bare))
  have rendering : f.Rendering text.toList := by
    have split : text.toList = '(' :: "\"a\\\"&(\\\\\"".toList ++ [')'] ++
        '&' :: ('(' :: ('(' :: ("\"é\"".toList ++ '|' :: "b".toList) ++ [')']) ++ [')']) := by
      decide
    rw [split]
    exact .group (Nat.le_refl 2) (.more (.enclosed marks) (.last (.enclosed (.enclosed either))))
  have within : nesting (Text.Utf8.bytes text) ≤ rules.limit.toNat := by decide
  exact ⟨steady, rendering, within, Rules.parse_rendering steady rendering within⟩

end Clearance
