import Clearance.Proofs.Binary
import Clearance.Proofs.Steady
import Clearance.Proofs.Writing

/-! What normalization decides. The tree of a label is a term over the two connectives, each group
the fold of its members, and two labels have one normal form exactly if the laws of order,
repetition and bracketing make their terms equal. -/
namespace Clearance

/-- The terms of a group joined one after the other, from the left. -/
def Binary.fold? (op : Connective) : List Binary → Option Binary
  | [] => none
  | a :: as => some (as.foldl (.join op) a)

namespace Tree

mutual

/-- The term of a tree. The empty label has none. -/
def term? : Tree → Option Binary
  | .empty => none
  | .leaf _ _ value => some (.atom value)
  | .group op _ members => (terms? members).bind (Binary.fold? op)

def terms? : List Tree → Option (List Binary)
  | [] => some []
  | t :: ts => do return (← t.term?) :: (← terms? ts)

end

end Tree

namespace Formula

mutual

/-- A normal form mentions the same values. -/
theorem mem_values_normal {v : String} : ∀ f : Formula, v ∈ f.normal.values ↔ v ∈ f.values
  | .atom _ => Iff.rfl
  | .group op ms => by
    rw [normal, mem_values_gather, mem_values_normalMembers op ms, values]

theorem mem_values_normalMembers (op : Connective) {v : String} : ∀ fs : List Formula,
    (∃ f ∈ normalMembers op fs, v ∈ f.values) ↔ v ∈ memberValues fs
  | [] => by simp [normalMembers, memberValues]
  | f :: fs => by
    have here := (mem_values_membersUnder op f.normal).trans (mem_values_normal (v := v) f)
    have later := mem_values_normalMembers op (v := v) fs
    rw [memberValues, List.mem_append, ← here, ← later, normalMembers]
    simp only [List.mem_append, or_and_right, exists_or]

end

end Formula

namespace Grammar

mutual

/-- The term of an expression. -/
def Expression.binary : Expression → Binary
  | .single t => t.binary
  | .group op first others => others.fold op first.binary

def Term.binary : Term → Binary
  | .word w => .atom w.value
  | .enclosed x => x.binary

/-- The term of a group, from that of its members so far. -/
def Members.fold (op : Connective) (sofar : Binary) : Members → Binary
  | .last t => .join op sofar t.binary
  | .more t others => others.fold op (.join op sofar t.binary)

end

mutual

theorem Expression.term?_tree : ∀ (x : Expression) (offset : Nat),
    (x.tree offset).term? = some x.binary
  | .single t, offset => t.term?_tree offset
  | .group op first others, offset => by
    obtain ⟨as, terms, folds⟩ := others.terms?_trees op first.binary (offset + first.text.length)
    rw [Expression.tree, Tree.term?, Tree.terms?, first.term?_tree offset, terms,
      Expression.binary, ← folds]
    rfl

theorem Term.term?_tree : ∀ (t : Term) (offset : Nat), (t.tree offset).term? = some t.binary
  | .word _, _ => rfl
  | .enclosed x, offset => x.term?_tree (offset + 1)

theorem Members.terms?_trees (op : Connective) : ∀ (ms : Members) (sofar : Binary) (offset : Nat),
    ∃ as, Tree.terms? (ms.trees offset) = some as ∧ as.foldl (.join op) sofar = ms.fold op sofar
  | .last t, sofar, offset => by
    refine ⟨[t.binary], ?_, rfl⟩
    rw [Members.trees, Tree.terms?, t.term?_tree, Tree.terms?]
    rfl
  | .more t others, sofar, offset => by
    obtain ⟨as, terms, folds⟩ :=
      others.terms?_trees op (.join op sofar t.binary) (offset + 1 + t.text.length)
    refine ⟨t.binary :: as, ?_, folds⟩
    rw [Members.trees, Tree.terms?, t.term?_tree, terms]
    rfl

end

mutual

/-- The normal form of an expression is the canonical formula of its term. -/
theorem Expression.normal_formula : ∀ x : Expression, x.formula.normal = x.binary.normal
  | .single t => t.normal_formula
  | .group op first others => by
    rw [Expression.formula, Formula.normal, Formula.normalMembers, first.normal_formula,
      Expression.binary, others.normal_fold op first.binary]

theorem Term.normal_formula : ∀ t : Term, t.formula.normal = t.binary.normal
  | .word _ => rfl
  | .enclosed x => x.normal_formula

theorem Members.normal_fold (op : Connective) : ∀ (ms : Members) (sofar : Binary),
    (ms.fold op sofar).normal =
      Formula.gather op (sofar.normal.membersUnder op ++ Formula.normalMembers op ms.formulas)
  | .last t, sofar => by
    rw [Members.fold, Binary.normal, Members.formulas, Formula.normalMembers, t.normal_formula,
      Formula.normalMembers, List.append_nil]
  | .more t others, sofar => by
    rw [Members.fold, others.normal_fold op, Members.formulas, Formula.normalMembers,
      t.normal_formula]
    apply Formula.gather_congr op
    intro f
    rw [List.mem_append, Binary.mem_normal_join, List.mem_append, List.mem_append, or_assoc]

end

mutual

theorem Expression.values_formula : ∀ x : Expression, x.formula.values = x.words.map Word.value
  | .single t => t.values_formula
  | .group op first others => by
    rw [Expression.formula, Formula.values, Formula.memberValues, first.values_formula,
      others.values_formulas, Expression.words, List.map_append]

theorem Term.values_formula : ∀ t : Term, t.formula.values = t.words.map Word.value
  | .word _ => rfl
  | .enclosed x => x.values_formula

theorem Members.values_formulas : ∀ ms : Members,
    Formula.memberValues ms.formulas = ms.words.map Word.value
  | .last t => by
    rw [Members.formulas, Formula.memberValues, t.values_formula, Formula.memberValues,
      List.append_nil, Members.words]
  | .more t others => by
    rw [Members.formulas, Formula.memberValues, t.values_formula, others.values_formulas,
      Members.words, List.map_append]

end

theorem Expression.canonical_normal (x : Expression) : x.formula.normal.Canonical := by
  rw [x.normal_formula]
  exact x.binary.canonical_normal

/-- The normal form of a label has a label again. -/
theorem Expression.normal_writable {x : Expression}
    (text : ∀ w ∈ x.words, w.value? = some w.value) : x.formula.normal.Writable := by
  apply x.canonical_normal.writable
  intro v mentioned
  rw [Formula.mem_values_normal, x.values_formula, List.mem_map] at mentioned
  obtain ⟨w, member, rfl⟩ := mentioned
  exact Word.value_ne_empty (text w member)

end Grammar

open Grammar

/-- A label that has a tree and is not empty has a term and a normal form, by its derivation. -/
theorem Rules.normalize_of_parse {σ : Type} {rules : Rules σ} {label : List UInt8} {tree : Tree}
    {s t : σ} (nonempty : label ≠ []) (parsed : (rules.parse label).on s = (.ok tree, t)) :
    ∃ x : Expression, tree.term? = some x.binary ∧ x.formula.normal.Writable ∧
      (rules.normalize label).on s = (.ok x.formula.normal.written, t) := by
  rcases rules.parse_ok parsed with ⟨empty, _⟩ | ⟨x, rfl, _, rfl, passed⟩
  · exact absurd empty nonempty
  refine ⟨x, x.term?_tree 0, Expression.normal_writable (value?_of_audit passed), ?_⟩
  rw [Rules.normalize, Run.on_bind, parsed]
  show (Except.ok (x.tree 0).normalized, t) = _
  rw [Tree.normalized, x.formula?_tree]

/-- Normalization decides equality by the laws of order, repetition and bracketing, whatever rules
two labels are read by, and leaves no label without any byte. -/
theorem Rules.normalize_eq_iff {σ τ : Type} {rules : Rules σ} {rules' : Rules τ}
    {label label' : List UInt8} {tree tree' : Tree} {s t : σ} {s' t' : τ}
    (nonempty : label ≠ []) (nonempty' : label' ≠ [])
    (parsed : (rules.parse label).on s = (.ok tree, t))
    (parsed' : (rules'.parse label').on s' = (.ok tree', t')) :
    ∃ a b : Binary, tree.term? = some a ∧ tree'.term? = some b ∧
      ∃ normal normal' : String, (rules.normalize label).on s = (.ok normal, t) ∧
        (rules'.normalize label').on s' = (.ok normal', t') ∧
        (normal = normal' ↔ Binary.Same a b) ∧ normal ≠ "" ∧ normal' ≠ "" := by
  obtain ⟨x, term, writable, writes⟩ := Rules.normalize_of_parse nonempty parsed
  obtain ⟨y, term', writable', writes'⟩ := Rules.normalize_of_parse nonempty' parsed'
  refine ⟨x.binary, y.binary, term, term', _, _, writes, writes', ?_,
    Formula.written_ne_empty writable, Formula.written_ne_empty writable'⟩
  rw [← Binary.normal_eq_iff, ← x.normal_formula, ← y.normal_formula]
  constructor
  · exact Formula.written_injective writable writable'
  · exact congrArg Formula.written

/-- The labels `b|a` and `a|("b"|b)`, read by the standard rules. -/
theorem Rules.normalize_eq_iff_regrouped :
    let rules : Rules Unit := {}
    let label : List UInt8 := [0x62, 0x7C, 0x61]
    let label' : List UInt8 := [0x61, 0x7C, 0x28, 0x22, 0x62, 0x22, 0x7C, 0x62, 0x29]
    label ≠ [] ∧ label' ≠ [] ∧ ∃ tree tree' : Tree, (rules.parse label).on () = (.ok tree, ()) ∧
      (rules.parse label').on () = (.ok tree', ()) ∧
      ∃ a b : Binary, tree.term? = some a ∧ tree'.term? = some b ∧
        ∃ normal normal' : String, (rules.normalize label).on () = (.ok normal, ()) ∧
          (rules.normalize label').on () = (.ok normal', ()) ∧
          (normal = normal' ↔ Binary.Same a b) ∧ normal ≠ "" ∧ normal' ≠ "" := by
  intro rules label label'
  let a : Word := .spell "a" (by decide)
  let b : Word := .spell "b" (by decide)
  let quoted : Word := .quoted [0x62] (by decide) (.plain (by decide) .nil)
  let x : Expression := .group .or (.word b) (.last (.word a))
  let y : Expression := .group .or (.word a)
    (.last (.enclosed (.group .or (.word quoted) (.last (.word b)))))
  have steady : rules.policy.Steady (isOrdinary rules.categories) := fun _ _ _ => rfl
  have allowed : ∀ w ∈ [a, quoted, b], w.Allowed (isOrdinary rules.categories) := by
    have stands : quoted.value? = some "b" := Text.Utf8.decode?_eq_some.mpr (by decide)
    rw [List.forall_mem_cons, List.forall_mem_cons, List.forall_mem_singleton]
    exact ⟨Word.allowed_spell _ rfl, Word.allowed_of_value stands (by decide),
      Word.allowed_spell _ rfl⟩
  have allowed' : ∀ w ∈ [b, a], w.Allowed (isOrdinary rules.categories) := by
    rw [List.forall_mem_cons, List.forall_mem_singleton]
    exact ⟨Word.allowed_spell _ rfl, Word.allowed_spell _ rfl⟩
  have nonempty : label ≠ [] := List.cons_ne_nil _ _
  have nonempty' : label' ≠ [] := List.cons_ne_nil _ _
  have text : x.text = label := by decide
  have text' : y.text = label' := by decide
  obtain ⟨_, parsed⟩ := rules.parse_yields (x := x) steady (by decide) allowed' ()
  obtain ⟨_, parsed'⟩ := rules.parse_yields (x := y) steady (by decide) allowed ()
  rw [text] at parsed
  rw [text'] at parsed'
  exact ⟨nonempty, nonempty', x.tree 0, y.tree 0, parsed, parsed',
    Rules.normalize_eq_iff nonempty nonempty' parsed parsed'⟩

end Clearance
