import Clearance.Proofs.Parts
import Clearance.Proofs.Steady

/-! Parts of a label that are read on their own. A part is read as it was within the label, but
for where it begins: its tree is the subtree, moved to the front. -/
namespace Clearance

open Grammar Text.Utf8

namespace Span

/-- A span at other offsets. -/
def move (f : Nat → Nat) (span : Span) : Span := ⟨f span.start, f span.stop⟩

end Span

namespace Tree

mutual

/-- The same tree, its leaves and groups at other offsets. -/
def move (f : Nat → Nat) : Tree → Tree
  | .empty => .empty
  | .leaf span quoted value => .leaf (span.move f) quoted value
  | .group op span members => .group op (span.move f) (moveMembers f members)

def moveMembers (f : Nat → Nat) : List Tree → List Tree
  | [] => []
  | t :: ts => t.move f :: moveMembers f ts

end

mutual

@[simp] theorem move_move (f g : Nat → Nat) : ∀ t : Tree, (t.move g).move f = t.move (f ∘ g)
  | .empty => rfl
  | .leaf .. => rfl
  | .group op _ members => congrArg (Tree.group op _) (moveMembers_moveMembers f g members)

theorem moveMembers_moveMembers (f g : Nat → Nat) : ∀ ts : List Tree,
    moveMembers f (moveMembers g ts) = moveMembers (f ∘ g) ts
  | [] => rfl
  | t :: ts => by
    rw [moveMembers, moveMembers, move_move f g t, moveMembers_moveMembers f g ts, moveMembers]

end

mutual

@[simp] theorem move_id : ∀ t : Tree, t.move id = t
  | .empty => rfl
  | .leaf .. => rfl
  | .group op span members => congrArg (Tree.group op span) (moveMembers_id members)

theorem moveMembers_id : ∀ ts : List Tree, moveMembers id ts = ts
  | [] => rfl
  | t :: ts => by rw [moveMembers, move_id t, moveMembers_id ts]

end

mutual

/-- Where a tree stands makes no difference to the formula that it is. -/
@[simp] theorem formula?_move (f : Nat → Nat) : ∀ t : Tree, (t.move f).formula? = t.formula?
  | .empty => rfl
  | .leaf .. => rfl
  | .group op _ members => by rw [move, formula?, formula?, formulas_moveMembers f members]

theorem formulas_moveMembers (f : Nat → Nat) : ∀ ts : List Tree,
    formulas (moveMembers f ts) = formulas ts
  | [] => rfl
  | t :: ts => by
    rw [moveMembers, formulas, formulas, formula?_move f t, formulas_moveMembers f ts]

end

@[simp] theorem normalized_move (f : Nat → Nat) (t : Tree) :
    (t.move f).normalized = t.normalized := by
  rw [normalized, normalized, t.formula?_move f]

end Tree

namespace Grammar

mutual

/-- The tree of an expression that begins further behind. -/
theorem Expression.tree_add (n : Nat) : ∀ (x : Expression) (offset : Nat),
    x.tree (offset + n) = (x.tree offset).move (· + n)
  | .single t, offset => t.tree_add n offset
  | .group op first others, offset => by
    rw [Expression.tree, Expression.tree, Tree.move, Tree.moveMembers, first.tree_add n,
      Nat.add_right_comm offset n first.text.length, others.trees_add n, Span.move,
      Nat.add_right_comm _ n (others.text op).length]

theorem Term.tree_add (n : Nat) : ∀ (t : Term) (offset : Nat),
    t.tree (offset + n) = (t.tree offset).move (· + n)
  | .word w, offset => by
    rw [Term.tree, Term.tree, Tree.move, Span.move, Nat.add_right_comm]
  | .enclosed x, offset => by
    rw [Term.tree, Term.tree, Nat.add_right_comm, x.tree_add n]

theorem Members.trees_add (n : Nat) : ∀ (ms : Members) (offset : Nat),
    ms.trees (offset + n) = Tree.moveMembers (· + n) (ms.trees offset)
  | .last t, offset => by
    rw [Members.trees, Members.trees, Tree.moveMembers, Nat.add_right_comm, t.tree_add n,
      Tree.moveMembers]
  | .more t others, offset => by
    rw [Members.trees, Members.trees, Tree.moveMembers, Nat.add_right_comm offset n 1,
      t.tree_add n, Nat.add_right_comm, others.trees_add n]

end

/-- A tree that is moved to the front of a label. -/
theorem Expression.move_tree (x : Expression) (offset : Nat) :
    (x.tree offset).move (· - offset) = x.tree 0 := by
  have back : ((· - offset) ∘ (· + offset) : Nat → Nat) = id :=
    funext fun i => Nat.add_sub_cancel i offset
  calc
    (x.tree offset).move (· - offset)
    _ = (x.tree (0 + offset)).move (· - offset) := by rw [Nat.zero_add]
    _ = x.tree 0 := by rw [x.tree_add offset 0, Tree.move_move, back, Tree.move_id]

end Grammar

namespace Rules

variable {σ : Type} {rules : Rules σ} {answer : String → Charset → Bool} {label : List UInt8}
  {tree node : Tree} {depth : Nat} {s t : σ}

/-- How the part of a label that a node was read from is read on its own. -/
structure RereadsAs (rules : Rules σ) (label : List UInt8) (node : Tree) : Prop where
  parse : Run.Yields (rules.parse (bytes (node.text label))) (node.move (· - node.span.start))
  /-- All of the node stands behind its beginning, so that moving it to the front loses nothing. -/
  restores : (node.move (· - node.span.start)).move (· + node.span.start) = node
  normalize : Run.Yields (rules.normalize (bytes (node.text label))) node.normalized

/-- Each subtree is what its own part of the label is read as. -/
theorem rereads_of_parse (steady : rules.policy.Steady answer)
    (parsed : (rules.parse label).on s = (.ok tree, t)) (member : (depth, node) ∈ tree.nodes 0) :
    rules.RereadsAs label node := by
  suffices parse : Run.Yields (rules.parse (bytes (node.text label)))
      (node.move (· - node.span.start)) ∧
      (node.move (· - node.span.start)).move (· + node.span.start) = node by
    have normal : Run.Yields (rules.normalize (bytes (node.text label)))
        (node.move (· - node.span.start)).normalized := parse.1.bind (Run.yields_pure _)
    rw [node.normalized_move] at normal
    exact ⟨parse.1, parse.2, normal⟩
  rcases rules.parse_ok parsed with ⟨rfl, rfl⟩ | ⟨x, rfl, within, rfl, passed⟩
  · obtain ⟨rfl, rfl⟩ := Prod.ext_iff.mp (List.mem_singleton.mp member)
    rw [Tree.text_empty]
    exact ⟨Run.yields_pure _, rfl⟩
  · obtain ⟨start, y, isPart, rfl⟩ := Expression.exists_isPart member
    have begins : (y.tree start).span.start = start := by rw [isPart.opened.span_tree]
    rw [isPart.bytes_text (value?_of_audit passed), begins, y.move_tree start, ← y.tree_add,
      Nat.zero_add]
    refine ⟨parse_yields steady (Nat.le_trans isPart.depth_le within) fun w member => ?_, rfl⟩
    exact allowed_of_audit steady passed w (isPart.words_subset member)

/-- In `((A&B)|C|(D))&E` the disjunction begins and ends with members in parentheses, which its
part keeps. -/
theorem rereads_of_parse_parentheses :
    let rules : Rules Nat := { limit := 2, policy? := some fun _ _ n => (true, n + 1) }
    let label : List UInt8 := bytes "((A&B)|C|(D))&E"
    let node : Tree := .group .or ⟨1, 12⟩
      [.group .and ⟨2, 5⟩ [.leaf ⟨2, 3⟩ false "A", .leaf ⟨4, 5⟩ false "B"],
        .leaf ⟨7, 8⟩ false "C", .leaf ⟨10, 11⟩ false "D"]
    let tree : Tree := .group .and ⟨0, 15⟩ [node, .leaf ⟨14, 15⟩ false "E"]
    rules.policy.Steady (fun _ _ => true) ∧ (∃ t, (rules.parse label).on 0 = (.ok tree, t)) ∧
      (1, node) ∈ tree.nodes 0 ∧ rules.RereadsAs label node := by
  intro rules label node tree
  let a : Word := .spell "A" (by decide)
  let b : Word := .spell "B" (by decide)
  let c : Word := .spell "C" (by decide)
  let d : Word := .spell "D" (by decide)
  let e : Word := .spell "E" (by decide)
  let inner : Expression := .group .or (.enclosed (.group .and (.word a) (.last (.word b))))
    (.more (.word c) (.last (.enclosed (.single (.word d)))))
  let x : Expression := .group .and (.enclosed inner) (.last (.word e))
  have text : label = x.text := by decide
  have steady : rules.policy.Steady (fun _ _ => true) := fun _ _ _ => rfl
  have allowed : ∀ w ∈ x.words, w.Allowed (fun _ _ => true) := by
    show ∀ w ∈ [a, b, c, d, e], _
    simp only [List.forall_mem_cons, List.not_mem_nil, false_implies, implies_true, and_true]
    exact ⟨Word.allowed_spell _ rfl, Word.allowed_spell _ rfl, Word.allowed_spell _ rfl,
      Word.allowed_spell _ rfl, Word.allowed_spell _ rfl⟩
  have same : x.tree 0 = tree := by
    show Tree.group .and ⟨0, 15⟩ [.group .or ⟨1, 12⟩ [.group .and ⟨2, 5⟩
      [.leaf ⟨2, 3⟩ false a.value, .leaf ⟨4, 5⟩ false b.value], .leaf ⟨7, 8⟩ false c.value,
        .leaf ⟨10, 11⟩ false d.value], .leaf ⟨14, 15⟩ false e.value] = tree
    simp only [a, b, c, d, e, Word.value_spell]
    rfl
  obtain ⟨t, parsed⟩ := parse_yields steady (x := x) (by decide) allowed 0
  rw [← text, same] at parsed
  have member : (1, node) ∈ tree.nodes 0 := List.mem_cons_of_mem _ List.mem_cons_self
  exact ⟨steady, ⟨t, parsed⟩, member, rereads_of_parse steady parsed member⟩

end Rules

end Clearance
