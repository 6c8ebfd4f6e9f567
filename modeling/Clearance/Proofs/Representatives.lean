import Clearance.Proofs.Rendering
import Clearance.Proofs.Renormalizing

/-! The canonical formula of a tree. It stands for all trees that the laws of order, repetition and
bracketing make equal, mentions what they mention, and stands for itself. -/
namespace Clearance

variable {σ : Type}

namespace Tree

/-- The canonical formula of a tree. The empty tree has none. -/
def canonical? (t : Tree) : Option Formula := t.formula?.map Formula.normal

/-- What is written for a tree is its canonical formula. -/
theorem normalized_eq (t : Tree) : t.normalized = (t.canonical?.map Formula.written).getD "" := by
  rw [normalized, canonical?]
  cases t.formula? <;> rfl

mutual

/-- A tree has the formula that it shows, and no other. -/
theorem Shows.formula?_eq : ∀ {t : Tree} {f : Formula}, t.Shows f → t.formula? = some f
  | .leaf _ _ _, .atom _, shows => congrArg (some ∘ Formula.atom) shows
  | .group _ _ _, .group _ _, ⟨same, shows⟩ => by
    rw [formula?, AllShow.formulas_eq shows, same]

theorem AllShow.formulas_eq : ∀ {ts : List Tree} {fs : List Formula},
    AllShow ts fs → formulas ts = fs
  | [], [], _ => rfl
  | t :: ts, f :: fs, ⟨shows, later⟩ => by
    rw [formulas, Shows.formula?_eq shows, AllShow.formulas_eq later]

end

mutual

theorem Shows.values_eq : ∀ {t : Tree} {f : Formula}, t.Shows f → t.values = f.values
  | .leaf _ _ _, .atom _, shows => congrArg ([·]) shows
  | .group _ _ _, .group _ _, ⟨_, shows⟩ => AllShow.memberValues_eq shows

theorem AllShow.memberValues_eq : ∀ {ts : List Tree} {fs : List Formula},
    AllShow ts fs → memberValues ts = Formula.memberValues fs
  | [], [], _ => rfl
  | t :: ts, f :: fs, ⟨shows, later⟩ => by
    rw [memberValues, Shows.values_eq shows, AllShow.memberValues_eq later, Formula.memberValues]

end

end Tree

namespace Formula

mutual

/-- Every formula can be viewed as a tree. -/
theorem exists_shows : ∀ f : Formula, ∃ t : Tree, t.Shows f
  | .atom v => ⟨.leaf ⟨0, 0⟩ false v, rfl⟩
  | .group op ms => by
    obtain ⟨ts, show_⟩ := exists_allShow ms
    exact ⟨.group op ⟨0, 0⟩ ts, rfl, show_⟩

theorem exists_allShow : ∀ fs : List Formula, ∃ ts : List Tree, Tree.AllShow ts fs
  | [] => ⟨[], trivial⟩
  | f :: fs => by
    obtain ⟨t, first⟩ := exists_shows f
    obtain ⟨ts, later⟩ := exists_allShow fs
    exact ⟨t :: ts, first, later⟩

end

end Formula

open Grammar

/-- The tree of a label that is not empty has a canonical formula: in each of its groups at least
two members ascend strictly, and none is a group of the same connective. It mentions the values of
the leaves and no others, and it is what is written for the tree. A formula that is canonical
already can be viewed as a tree, and whatever tree shows it has it for its canonical formula. -/
theorem Rules.canonical_of_parse {rules : Rules σ} {label : List UInt8} {tree : Tree} {s t : σ}
    (nonempty : label ≠ []) (parsed : (rules.parse label).on s = (.ok tree, t)) :
    (∃ f : Formula, tree.canonical? = some f ∧ f.Canonical ∧ (∀ v, v ∈ f.values ↔ v ∈ tree.values) ∧
      tree.normalized = f.written) ∧
    ∀ f : Formula, f.Canonical →
      (∃ view : Tree, view.Shows f) ∧ ∀ view : Tree, view.Shows f → view.canonical? = some f := by
  constructor
  · rcases rules.parse_ok parsed with ⟨empty, _⟩ | ⟨x, rfl, _, rfl, _⟩
    · exact absurd empty nonempty
    have shows := x.shows_tree 0
    have found : (x.tree 0).canonical? = some x.formula.normal := by
      rw [Tree.canonical?, shows.formula?_eq, Option.map_some]
    refine ⟨x.formula.normal, found, x.canonical_normal, fun v => ?_, ?_⟩
    · rw [Formula.mem_values_normal, shows.values_eq]
    · rw [Tree.normalized_eq, found]
      rfl
  · intro f canonical
    refine ⟨f.exists_shows, fun view shows => ?_⟩
    rw [Tree.canonical?, shows.formula?_eq, Option.map_some, canonical.normal_eq]

/-- The label `(A|A)&B&(B&C)`, in which one group collapses, another is spliced and a value repeats;
and the formula `A|(A&B)`, which is canonical. -/
theorem Rules.canonical_of_parse_collapsing :
    let rules : Rules Unit := {}
    let label : List UInt8 :=
      [0x28, 0x41, 0x7C, 0x41, 0x29, 0x26, 0x42, 0x26, 0x28, 0x42, 0x26, 0x43, 0x29]
    let inner : Formula := .group .and [.atom "A", .atom "B"]
    let g : Formula := .group .or [.atom "A", inner]
    label ≠ [] ∧ ∃ tree : Tree, (rules.parse label).on () = (.ok tree, ()) ∧
      (∃ f : Formula, tree.canonical? = some f ∧ f.Canonical ∧
        (∀ v, v ∈ f.values ↔ v ∈ tree.values) ∧ tree.normalized = f.written) ∧
      g.Canonical ∧ (∃ view : Tree, view.Shows g) ∧
      ∀ view : Tree, view.Shows g → view.canonical? = some g := by
  intro rules label inner g
  let a : Word := .spell "A" (by decide)
  let b : Word := .spell "B" (by decide)
  let c : Word := .spell "C" (by decide)
  let x : Expression := .group .and (.enclosed (.group .or (.word a) (.last (.word a))))
    (.more (.word b) (.last (.enclosed (.group .and (.word b) (.last (.word c))))))
  have steady : rules.policy.Steady (isOrdinary rules.categories) := fun _ _ _ => rfl
  have allowed : ∀ w ∈ x.words, w.Allowed (isOrdinary rules.categories) := by
    show ∀ w ∈ [a, a, b, b, c], _
    simp only [List.forall_mem_cons]
    exact ⟨Word.allowed_spell _ rfl, Word.allowed_spell _ rfl, Word.allowed_spell _ rfl,
      Word.allowed_spell _ rfl, Word.allowed_spell _ rfl, nofun⟩
  have text : x.text = label := by decide
  obtain ⟨_, parsed⟩ := rules.parse_yields (x := x) steady (by decide) allowed ()
  rw [text] at parsed
  have nonempty : label ≠ [] := List.cons_ne_nil _ _
  have ab : (Formula.atom "A").compare (.atom "B") = .lt := by
    rw [Formula.compare]
    decide
  have innerCanonical : inner.Canonical := by
    refine .group (Nat.le_refl 2) (List.pairwise_pair.mpr ab) ?_ ?_
    · simp
    · simpa using ⟨.atom "A", .atom "B"⟩
  have canonical : g.Canonical := by
    refine .group (Nat.le_refl 2) (List.pairwise_pair.mpr ?_) ?_ ?_
    · simp [inner, Formula.compare, Formula.rank]; rfl
    · simp [inner]
    · simpa using ⟨.atom "A", innerCanonical⟩
  obtain ⟨found, viewed⟩ := Rules.canonical_of_parse nonempty parsed
  exact ⟨nonempty, x.tree 0, parsed, found, canonical, viewed g canonical⟩

end Clearance
