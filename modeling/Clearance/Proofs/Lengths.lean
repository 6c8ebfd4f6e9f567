import Clearance.Proofs.Parts
import Clearance.Proofs.Steady
import Clearance.Proofs.Writing

/-! How long a normal form is: no longer than the text it is the normal form of. Each member of a
group is charged to a stretch of that text together with the connective before it. A pair of
parentheses that is written is charged to one that was read: one without need of it is not
written, and a group that is spliced into another loses its own. -/
namespace Clearance

open Grammar Text.Utf8

namespace Formula

/-- How many bytes are written for a formula. -/
def length (f : Formula) : Nat := (encode f.characters).length

/-- How many bytes are written for a member of a group. -/
def memberLength (f : Formula) : Nat := (encode f.enclosed).length

/-- How many bytes are written for the members of a group, each with a connective before it. -/
def load : List Formula → Nat
  | [] => 0
  | f :: fs => f.memberLength + 1 + load fs

@[simp] theorem load_nil : load [] = 0 := rfl

@[simp] theorem load_cons (f : Formula) (fs : List Formula) :
    load (f :: fs) = f.memberLength + 1 + load fs := rfl

@[simp] theorem load_append (fs gs : List Formula) : load (fs ++ gs) = load fs + load gs := by
  induction fs with
  | nil => simp
  | cons f fs ih =>
    simp only [List.cons_append, load_cons, ih]
    omega

@[simp] theorem memberLength_atom (v : String) : (atom v).memberLength = (atom v).length := rfl

@[simp] theorem memberLength_group (op : Connective) (ms : List Formula) :
    (group op ms).memberLength = (group op ms).length + 2 := by
  have enclosed : (group op ms).enclosed = '(' :: (group op ms).characters ++ [')'] := rfl
  rw [memberLength, enclosed, encode_enclosed]
  simp [length]

/-- The first member has no connective before it. -/
theorem length_group (op : Connective) : ∀ ms : List Formula,
    (group op ms).length = load ms - 1
  | [] => rfl
  | [m] => rfl
  | m :: n :: ms => by
    have later := length_group op (n :: ms)
    have joined : (group op (m :: n :: ms)).characters =
        m.enclosed ++ op.symbol :: (group op (n :: ms)).characters := rfl
    rw [length] at later ⊢
    rw [joined, encode_append, encode_symbol, List.length_append, List.length_cons, later]
    simp only [load_cons, memberLength]
    omega

theorem length_le_memberLength (f : Formula) : f.length ≤ f.memberLength := by
  cases f <;> simp

/-- A member costs a pair of parentheses and a connective, if it is not spliced. -/
theorem load_membersUnder_le (op : Connective) (f : Formula) :
    load (f.membersUnder op) ≤ f.length + 3 := by
  cases f with
  | atom v => simp [membersUnder]
  | group op' ms =>
    by_cases same : op' = op
    · have spliced := length_group op' ms
      simp [membersUnder, same] at spliced ⊢
      omega
    · simp [membersUnder, same]

/-- In a group of one of the connectives, a formula costs at least its own bytes. -/
theorem exists_length_lt_load (f : Formula) : ∃ op, f.length < load (f.membersUnder op) := by
  cases f with
  | atom v => exact ⟨.and, by simp [membersUnder]⟩
  | group op ms => exact ⟨op.other, by cases op <;> simp [membersUnder, Connective.other]⟩

theorem load_perm {fs gs : List Formula} (same : fs.Perm gs) : load fs = load gs := by
  induction same with
  | nil => rfl
  | cons f _ ih => simp [ih]
  | swap f g fs =>
    simp only [load_cons]
    omega
  | trans _ _ ih ih' => exact ih.trans ih'

theorem load_dropRepeatsOf_le (a : Formula) (bs : List Formula) :
    load (dropRepeatsOf a bs) ≤ load bs := by
  fun_induction dropRepeatsOf a bs with
  | case1 => exact Nat.le_refl _
  | case2 a b bs same ih => simp; omega
  | case3 a b bs apart ih => simp; omega

/-- Nothing is added by putting members in order, and repeats are not written. -/
theorem load_tidy_le (fs : List Formula) : load (tidy fs) ≤ load fs := by
  rw [← load_perm (List.mergeSort_perm fs _), tidy]
  change load (dropRepeats (ascending fs)) ≤ load (ascending fs)
  cases ascending fs with
  | nil => exact Nat.le_refl _
  | cons a as => simp [dropRepeats, load_dropRepeatsOf_le a as]

theorem length_gather_le (op : Connective) (fs : List Formula) :
    (gather op fs).length ≤ load fs - 1 := by
  have fewer := load_tidy_le fs
  rw [gather, ← tidy]
  split
  next only alone =>
    have least := length_le_memberLength only
    rw [alone, load_cons] at fewer
    omega
  next => rw [length_group]; omega

end Formula

namespace Grammar

/-- A value is written as it was, or without the quotes that it had. -/
theorem Word.length_value_le {w : Word} (text : w.value? = some w.value) :
    (Formula.atom w.value).length ≤ w.text.length := by
  have body := w.body_eq text
  have written : (Formula.atom w.value).length = (bytes (Spelling.write w.value)).length := rfl
  rw [written, Spelling.write]
  split
  next bare =>
    have within : (bytes w.value).length ≤ w.body.length := by simp [body, Escape.length_escape]
    cases w with
    | bare => exact within
    | quoted inner =>
      simp only [Word.body, Word.text, List.length_append, List.length_cons] at within ⊢
      omega
  next marked =>
    cases w with
    | bare run nonempty all =>
      have value : bytes (Word.bare run nonempty all).value = run := by
        rw [← decode?_eq_some.mp text]
        exact Word.strip_of_bare all
      rw [Spelling.isBareValue, value] at marked
      exact absurd all marked
    | quoted inner nonempty escaped =>
      rw [Spelling.bytes_enclose, ← body]
      exact Nat.le_refl _

mutual

theorem Expression.length_normal_le : ∀ x : Expression, (∀ w ∈ x.words, w.value? = some w.value) →
    x.formula.normal.length ≤ x.text.length
  | .single t, values => by
    obtain ⟨op, least⟩ := t.formula.normal.exists_length_lt_load
    exact Nat.le_of_lt_succ (Nat.lt_of_lt_of_le least (t.load_normal_le op values))
  | .group op first others, values => by
    obtain ⟨firstValues, otherValues⟩ := List.forall_mem_append.mp values
    have bound := Formula.length_gather_le op
      (first.formula.normal.membersUnder op ++ Formula.normalMembers op others.formulas)
    have here := first.load_normal_le op firstValues
    have later := others.load_normal_le op otherValues
    simp only [Formula.load_append] at bound
    simp only [Expression.formula, Formula.normal, Formula.normalMembers, Expression.text,
      List.length_append]
    omega

theorem Term.load_normal_le (op : Connective) : ∀ t : Term,
    (∀ w ∈ t.words, w.value? = some w.value) →
      Formula.load (t.formula.normal.membersUnder op) ≤ t.text.length + 1
  | .word w, values => by
    have bound := w.length_value_le (values w List.mem_cons_self)
    simpa [Term.formula, Formula.normal, Formula.membersUnder, Term.text] using bound
  | .enclosed x, values => by
    have inner := x.length_normal_le values
    have bound := x.formula.normal.load_membersUnder_le op
    simp only [Term.formula, Term.text, List.length_append, List.length_cons, List.length_nil]
    omega

theorem Members.load_normal_le (op : Connective) : ∀ ms : Members,
    (∀ w ∈ ms.words, w.value? = some w.value) →
      Formula.load (Formula.normalMembers op ms.formulas) ≤ (ms.text op).length
  | .last t, values => by
    have bound := t.load_normal_le op values
    simpa [Members.formulas, Formula.normalMembers, Members.text] using bound
  | .more t others, values => by
    obtain ⟨here, rest⟩ := List.forall_mem_append.mp values
    have bound := t.load_normal_le op here
    have later := others.load_normal_le op rest
    simp only [Members.formulas, Formula.normalMembers, Formula.load_append, Members.text,
      List.length_append, List.length_cons]
    omega

end

end Grammar

/-- No node of the tree of a label has a normal form that is longer than the part of the label
which it was read from. Room for that part is room for whatever has been written so far. -/
theorem Rules.normalized_fits {σ : Type} {rules : Rules σ} {label : List UInt8} {tree node : Tree}
    {s t : σ} {depth : Nat} (parsed : (rules.parse label).on s = (.ok tree, t))
    (within : (depth, node) ∈ tree.nodes 0) :
    (bytes node.normalized).length ≤ (bytes (node.text label)).length ∧
      ∀ sofar, sofar <+: bytes node.normalized →
        sofar.length ≤ (bytes (node.text label)).length := by
  have fits : (bytes node.normalized).length ≤ (bytes (node.text label)).length := by
    rcases rules.parse_ok parsed with ⟨rfl, rfl⟩ | ⟨x, rfl, _, rfl, passed⟩
    · cases List.mem_singleton.mp within
      exact Nat.zero_le _
    obtain ⟨start, y, isPart, rfl⟩ := Expression.exists_isPart within
    have values := value?_of_audit passed
    have written : (bytes (y.tree start).normalized).length = y.formula.normal.length := by
      rw [Tree.normalized, y.formula?_tree]
      exact congrArg List.length (bytes_ofList _)
    rw [isPart.bytes_text values, written]
    exact y.length_normal_le fun w member => values w (isPart.words_subset member)
  exact ⟨fits, fun _ begins => Nat.le_trans begins.length_le fits⟩

/-- The group `b|(a|"b")` of the label `(b|(a|"b"))&c`, read by the standard rules. -/
theorem Rules.normalized_fits_regrouped :
    let rules : Rules Unit := {}
    let label : List UInt8 := [0x28, 0x62, 0x7C, 0x28, 0x61, 0x7C, 0x22, 0x62, 0x22, 0x29, 0x29,
      0x26, 0x63]
    ∃ tree node : Tree, (rules.parse label).on () = (.ok tree, ()) ∧ (1, node) ∈ tree.nodes 0 ∧
      ((bytes node.normalized).length ≤ (bytes (node.text label)).length ∧
        ∀ sofar, sofar <+: bytes node.normalized →
          sofar.length ≤ (bytes (node.text label)).length) := by
  intro rules label
  let a : Word := .spell "a" (by decide)
  let b : Word := .spell "b" (by decide)
  let c : Word := .spell "c" (by decide)
  let quoted : Word := .quoted [0x62] (by decide) (.plain (by decide) .nil)
  let inner : Expression := .group .or (.word b)
    (.last (.enclosed (.group .or (.word a) (.last (.word quoted)))))
  let x : Expression := .group .and (.enclosed inner) (.last (.word c))
  have allowed : ∀ w ∈ [b, a, quoted, c], w.Allowed (isOrdinary rules.categories) := by
    have stands : quoted.value? = some "b" := decode?_eq_some.mpr (by decide)
    simp only [List.forall_mem_cons]
    exact ⟨Word.allowed_spell _ rfl, Word.allowed_spell _ rfl,
      Word.allowed_of_value stands (by decide), Word.allowed_spell _ rfl, List.forall_mem_nil _⟩
  have text : x.text = label := by decide
  obtain ⟨_, parsed⟩ := rules.parse_yields (x := x) (Policy.standard_steady _) (by decide) allowed ()
  rw [text] at parsed
  have member : (1, inner.tree 1) ∈ (x.tree 0).nodes 0 :=
    List.mem_cons_of_mem _ List.mem_cons_self
  exact ⟨x.tree 0, inner.tree 1, parsed, member, Rules.normalized_fits parsed member⟩

end Clearance
