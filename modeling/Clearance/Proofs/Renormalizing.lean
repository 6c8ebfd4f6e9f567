import Clearance.Proofs.Normalizing

/-! Normal forms read again. What is written for a normal form is a label of the same rules: it
nests no deeper than the label it comes from, since a group of a formula costs one pair of
parentheses at least and normalization adds no groups, and it asks nothing of the policy that has
not been allowed. Its own normal form is itself. -/
namespace Clearance

variable {σ : Type}

namespace Formula

open Grammar

mutual

/-- How many groups lie within one another. -/
def height : Formula → Nat
  | .atom _ => 0
  | .group _ ms => tallest ms + 1

def tallest : List Formula → Nat
  | [] => 0
  | m :: ms => max m.height (tallest ms)

end

theorem tallest_le_iff {fs : List Formula} {n : Nat} :
    tallest fs ≤ n ↔ ∀ f ∈ fs, f.height ≤ n := by
  induction fs with
  | nil => simp [tallest]
  | cons f fs ih => rw [tallest, Nat.max_le, ih, List.forall_mem_cons]

theorem height_le_tallest {f : Formula} {fs : List Formula} (member : f ∈ fs) :
    f.height ≤ tallest fs :=
  tallest_le_iff.mp (Nat.le_refl _) f member

theorem height_le_of_mem_membersUnder {op : Connective} {f m : Formula}
    (member : m ∈ f.membersUnder op) : m.height ≤ f.height := by
  cases f with
  | atom v => exact Nat.le_of_eq (congrArg height (List.mem_singleton.mp member))
  | group op' ms =>
    rw [membersUnder] at member
    split at member
    · exact Nat.le_succ_of_le (height_le_tallest member)
    · exact Nat.le_of_eq (congrArg height (List.mem_singleton.mp member))

theorem height_gather_le (op : Connective) (fs : List Formula) :
    (gather op fs).height ≤ tallest fs + 1 := by
  have tidied : tallest (tidy fs) ≤ tallest fs :=
    tallest_le_iff.mpr fun f member => height_le_tallest (mem_tidy.mp member)
  rw [gather, ← tidy]
  rcases kept : tidy fs with _ | ⟨a, _ | ⟨b, rest⟩⟩ <;> rw [kept] at tidied
  · exact Nat.le_add_left 1 _
  · exact Nat.le_succ_of_le (Nat.le_trans (height_le_tallest List.mem_cons_self) tidied)
  · exact Nat.succ_le_succ tidied

mutual

theorem height_normal_le : ∀ f : Formula, f.normal.height ≤ f.height
  | .atom _ => Nat.le_refl _
  | .group op ms =>
    Nat.le_trans (height_gather_le op _) (Nat.succ_le_succ (tallest_normalMembers_le op ms))

theorem tallest_normalMembers_le (op : Connective) : ∀ fs : List Formula,
    tallest (normalMembers op fs) ≤ tallest fs
  | [] => Nat.le_refl _
  | f :: fs => by
    have later := tallest_le_iff.mp (tallest_normalMembers_le op fs)
    rw [tallest_le_iff, normalMembers, List.forall_mem_append]
    constructor
    · intro m member
      calc
        m.height ≤ f.normal.height := height_le_of_mem_membersUnder member
        _ ≤ f.height := height_normal_le f
        _ ≤ tallest (f :: fs) := Nat.le_max_left _ _
    · exact fun m member => Nat.le_trans (later m member) (Nat.le_max_right _ _)

end

/-- A canonical formula is its own normal form. -/
theorem Canonical.normal_eq {f : Formula} (canonical : f.Canonical) : f.normal = f := by
  induction canonical with
  | atom v => rfl
  | @group op ms two ascends apart each ih =>
    have members : ∀ ns, (∀ m ∈ ns, m ∈ ms) → normalMembers op ns = ns := by
      intro ns within
      induction ns with
      | nil => rfl
      | cons n ns here =>
        obtain ⟨first, rest⟩ := List.forall_mem_cons.mp within
        have fits : n.Fits op := ⟨each n first, apart n first⟩
        rw [normalMembers, ih n first, fits.membersUnder_eq, here rest]
        rfl
    rw [normal, members ms fun _ member => member, gather, ← tidy, tidy_of_ascends ascends]
    rcases ms with _ | ⟨a, _ | ⟨b, rest⟩⟩
    · exact absurd two (Nat.not_succ_le_zero 1)
    · exact absurd two (Nat.not_succ_le_self 1)
    · rfl

theorem nestingFrom_open (depth : Nat) (rest : List UInt8) :
    nestingFrom depth .outside (openByte :: rest) = nestingFrom (depth + 1) .outside rest := rfl

theorem nestingFrom_close (depth : Nat) (rest : List UInt8) :
    nestingFrom (depth + 1) .outside (closeByte :: rest) =
      max (depth + 1) (nestingFrom depth .outside rest) := rfl

theorem nestingFrom_write {v : String} (nonempty : v ≠ "") (depth : Nat) (rest : List UInt8) :
    nestingFrom depth .outside (Text.Utf8.encode (Spelling.write v).toList ++ rest) =
      nestingFrom depth .outside rest := by
  have word : Text.Utf8.encode (Spelling.write v).toList = (Word.spell v nonempty).text :=
    (Word.text_spell v nonempty).symm
  rw [word, nestingFrom_word]

mutual

/-- A member of a group nests as deep in parentheses as groups lie within it. -/
theorem nestingFrom_enclosed : ∀ f : Formula, f.Writable → ∀ (depth : Nat) (rest : List UInt8),
    nestingFrom depth .outside (Text.Utf8.encode f.enclosed ++ rest) =
      max (depth + f.height) (nestingFrom depth .outside rest)
  | .atom v, .atom nonempty, depth, rest => by
    rw [enclosed, nestingFrom_write nonempty]
    exact (Nat.max_eq_right (le_nestingFrom rest depth .outside)).symm
  | .group op ms, .group _ each, depth, rest => by
    have split : Text.Utf8.encode (enclosed (.group op ms)) ++ rest =
        openByte :: (Text.Utf8.encode (joined op ms) ++ closeByte :: rest) := by
      rw [enclosed, encode_enclosed]
      simp
    rw [split, nestingFrom_open, nestingFrom_joined op ms each, nestingFrom_close, height]
    omega

theorem nestingFrom_joined (op : Connective) : ∀ fs : List Formula, (∀ f ∈ fs, f.Writable) →
    ∀ (depth : Nat) (rest : List UInt8),
      nestingFrom depth .outside (Text.Utf8.encode (joined op fs) ++ rest) =
        max (depth + tallest fs) (nestingFrom depth .outside rest)
  | [], _, depth, rest => (Nat.max_eq_right (le_nestingFrom rest depth .outside)).symm
  | [f], each, depth, rest => by
    rw [joined, nestingFrom_enclosed f (each f List.mem_cons_self), tallest, tallest, Nat.max_zero]
  | f :: g :: fs, each, depth, rest => by
    obtain ⟨here, later⟩ := List.forall_mem_cons.mp each
    rw [joined, Text.Utf8.encode_append, encode_symbol, List.append_assoc,
      nestingFrom_enclosed f here, List.cons_append, nestingFrom_connective,
      nestingFrom_joined op (g :: fs) later]
    simp only [tallest]
    omega

end

/-- The outermost group of what is written has no parentheses. -/
theorem nesting_written {f : Formula} (writable : f.Writable) :
    nesting (Text.Utf8.bytes f.written) = f.height - 1 := by
  rw [nesting, written, Text.Utf8.bytes_ofList, ← List.append_nil (Text.Utf8.encode _)]
  cases writable with
  | @atom v nonempty =>
    rw [characters, nestingFrom_write nonempty]
    rfl
  | @group op ms _ each =>
    rw [characters, nestingFrom_joined op ms each, height]
    exact (congrArg (max · 0) (Nat.zero_add _)).trans (Nat.max_zero _)

end Formula

namespace Grammar

mutual

/-- An expression has one pair of parentheses at least around each group within another. -/
theorem Expression.height_formula_le : ∀ x : Expression, x.formula.height ≤ x.depth + 1
  | .single t => Nat.le_succ_of_le t.height_formula_le
  | .group _ first others =>
    Nat.succ_le_succ (Nat.max_le.mpr
      ⟨Nat.le_trans first.height_formula_le (Nat.le_max_left _ _),
        Nat.le_trans others.tallest_formulas_le (Nat.le_max_right _ _)⟩)

theorem Term.height_formula_le : ∀ t : Term, t.formula.height ≤ t.depth
  | .word _ => Nat.le_refl _
  | .enclosed x => x.height_formula_le

theorem Members.tallest_formulas_le : ∀ ms : Members, Formula.tallest ms.formulas ≤ ms.depth
  | .last t => Nat.max_le.mpr ⟨t.height_formula_le, Nat.zero_le _⟩
  | .more t others => Nat.max_le.mpr
      ⟨Nat.le_trans t.height_formula_le (Nat.le_max_left _ _),
        Nat.le_trans others.tallest_formulas_le (Nat.le_max_right _ _)⟩

end

end Grammar

/-- Answers that allow a bare value without quotes if they allow it with them. -/
def Relaxed (answer : String → Charset → Bool) : Prop :=
  ∀ value, value ≠ "" → Spelling.isBareValue value = true → answer value .any = true →
    answer value .basic = true

theorem relaxed_isOrdinary (categories : Text.Categories) : Relaxed (isOrdinary categories) :=
  fun _ _ _ _ => rfl

namespace Grammar

variable {answer : String → Charset → Bool}

/-- A word that has been allowed is allowed in the spelling of its value. -/
theorem Word.Allowed.respell (relaxed : Relaxed answer) {w : Word} (allowed : w.Allowed answer)
    (nonempty : w.value ≠ "") : (spell w.value nonempty).Allowed answer := by
  apply Word.allowed_spell nonempty
  have answered := allowed.allowed
  have content : Escape.strip w.body = Text.Utf8.bytes w.value :=
    Text.Utf8.decode?_eq_some.mp allowed.text
  rw [spell]
  cases w with
  | bare bytes _ all =>
    have bare : isBare (Text.Utf8.bytes _) = true := content ▸ (strip_of_bare all).symm ▸ all
    rw [dif_pos bare]
    exact answered
  | quoted body _ _ =>
    split
    next bare => exact relaxed _ nonempty bare answered
    next => exact answered

theorem Expression.words_allowed (relaxed : Relaxed answer) {x y : Expression}
    (same : y.formula = x.formula.normal) (spelled : ∀ w ∈ y.words, w.Spelled)
    (allowed : ∀ w ∈ x.words, w.Allowed answer) : ∀ w ∈ y.words, w.Allowed answer := by
  intro w member
  obtain ⟨v, nonempty, rfl⟩ := spelled w member
  have mentioned : v ∈ y.formula.values := by
    rw [y.values_formula]
    exact List.mem_map.mpr ⟨_, member, Word.value_spell v nonempty⟩
  rw [same, Formula.mem_values_normal, x.values_formula, List.mem_map] at mentioned
  obtain ⟨u, source, rfl⟩ := mentioned
  exact (allowed u source).respell relaxed nonempty

end Grammar

open Grammar

namespace Rules

variable {rules : Rules σ} {answer : String → Charset → Bool}

theorem normalize_yields (steady : rules.policy.Steady answer) {x : Expression}
    (within : x.depth ≤ rules.limit.toNat) (allowed : ∀ w ∈ x.words, w.Allowed answer) :
    Run.Yields (rules.normalize x.text) x.formula.normal.written := by
  have normalized : (x.tree 0).normalized = x.formula.normal.written := by
    rw [Tree.normalized, x.formula?_tree]
  rw [← normalized]
  exact (rules.parse_yields steady within allowed).bind (Run.yields_pure _)

/-- The normal form of a label that has a tree is read by the same rules, nests no deeper, and is
its own normal form. -/
theorem normalize_stable (steady : rules.policy.Steady answer) (relaxed : Relaxed answer)
    {label : List UInt8} {tree : Tree} {s t : σ}
    (parsed : (rules.parse label).on s = (.ok tree, t)) :
    ∃ normal : String, Run.Yields (rules.normalize label) normal ∧
      nesting (Text.Utf8.bytes normal) ≤ nesting label ∧
      (∃ again : Tree, Run.Yields (rules.parse (Text.Utf8.bytes normal)) again) ∧
      Run.Yields (rules.normalize (Text.Utf8.bytes normal)) normal := by
  rcases rules.parse_ok parsed with ⟨rfl, _⟩ | ⟨x, rfl, within, _, passed⟩
  · exact ⟨"", fun s => ⟨s, rfl⟩, Nat.le_refl _, ⟨.empty, fun s => ⟨s, rfl⟩⟩, fun s => ⟨s, rfl⟩⟩
  have allowed := allowed_of_audit steady passed
  have writable := Expression.normal_writable (value?_of_audit passed)
  have canonical : x.formula.normal.Canonical := x.normal_formula ▸ x.binary.canonical_normal
  obtain ⟨y, text, same, spelled⟩ := Formula.exists_expression writable
  have shallow : nesting (Text.Utf8.bytes x.formula.normal.written) ≤ nesting x.text := by
    have lower := Nat.le_trans x.formula.height_normal_le x.height_formula_le
    rw [Formula.nesting_written writable, nesting_text]
    omega
  have deep : y.depth ≤ rules.limit.toNat := by
    rw [← nesting_text, text]
    exact Nat.le_trans shallow (nesting_text x ▸ within)
  -- The quotes that the normal form leaves out change what the policy is asked, not its answer.
  have allowedAgain := Expression.words_allowed relaxed same spelled allowed
  refine ⟨x.formula.normal.written, rules.normalize_yields steady within allowed, shallow, ?_⟩
  rw [← text]
  have settled := rules.normalize_yields steady deep allowedAgain
  rw [same, canonical.normal_eq] at settled
  exact ⟨⟨y.tree 0, rules.parse_yields steady deep allowedAgain⟩, settled⟩

/-- The label `(b|"a")|(("c d"|b))`, by rules with the standard policy and room for it alone. -/
theorem normalize_stable_regrouped :
    let rules : Rules Unit := { limit := 2 }
    let label : List UInt8 := Text.Utf8.bytes "(b|\"a\")|((\"c d\"|b))"
    rules.policy.Steady (isOrdinary rules.categories) ∧ Relaxed (isOrdinary rules.categories) ∧
      ∃ tree : Tree, (rules.parse label).on () = (.ok tree, ()) ∧
        ∃ normal : String, Run.Yields (rules.normalize label) normal ∧
          nesting (Text.Utf8.bytes normal) ≤ nesting label ∧
          (∃ again : Tree, Run.Yields (rules.parse (Text.Utf8.bytes normal)) again) ∧
          Run.Yields (rules.normalize (Text.Utf8.bytes normal)) normal := by
  intro rules label
  have steady : rules.policy.Steady (isOrdinary rules.categories) := fun _ _ _ => rfl
  let b : Word := .spell "b" (by decide)
  let a : Word := .quoted (Text.Utf8.bytes "a") (by decide) (.plain (by decide) .nil)
  let cd : Word := .spell "c d" (by decide)
  let x : Expression := .group .or (.enclosed (.group .or (.word b) (.last (.word a))))
    (.last (.enclosed (.single (.enclosed (.group .or (.word cd) (.last (.word b)))))))
  have text : x.text = label := by decide
  have allowed : ∀ w ∈ [b, a, cd, b], w.Allowed (isOrdinary rules.categories) := by
    have value : a.value? = some "a" := Text.Utf8.decode?_eq_some.mpr (by decide)
    simp only [List.forall_mem_cons]
    exact ⟨Word.allowed_spell _ rfl, Word.allowed_of_value value (by decide),
      Word.allowed_spell _ (by decide), Word.allowed_spell _ rfl, nofun⟩
  obtain ⟨_, parsed⟩ := rules.parse_yields (x := x) steady (by decide) allowed ()
  rw [text] at parsed
  exact ⟨steady, relaxed_isOrdinary _, x.tree 0, parsed,
    rules.normalize_stable steady (relaxed_isOrdinary _) parsed⟩

end Rules

end Clearance
