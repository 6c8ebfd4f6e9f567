import Clearance.Proofs.Family

/-! Labels that nest deeper than a gate lets them. A gate reads a text within its own limit, and
does not read a label whose tree is kept. So whether the limit of a gate counts depends on whether
the tree of the label has been asked for before. -/
namespace Clearance

variable {σ ν γ : Type}

namespace Grammar

/-- What is read, with whatever interpretation, nests within the limit. -/
theorem nesting_le_of_read {i : Interpretation σ ν γ} {limit : UInt32} {label : List UInt8}
    {s t : σ} {node : ν} (ok : (i.read limit label).on s = (.ok node, t)) :
    nesting label ≤ limit.toNat := by
  rcases read_ok ok with rfl | ⟨x, rfl, within⟩
  · exact Nat.zero_le _
  · rwa [nesting_text]

end Grammar

open Grammar

/-- A label nests within the limit of its own rules. -/
theorem Label.Made.nesting_le {x : Label σ} (made : x.Made) :
    nesting x.bytes ≤ x.rules.limit.toNat := by
  obtain ⟨_, _, valid⟩ := made.passed
  exact nesting_le_of_read valid

/-- A label whose words its rules allow, before its tree has been asked for and after. -/
theorem Label.made_of_allowed {rules : Rules σ} {answer : String → Charset → Bool}
    (steady : rules.policy.Steady answer) {x : Expression} {text : String}
    (spells : Text.Utf8.bytes text = x.text) (within : x.depth ≤ rules.limit.toNat)
    (allowed : ∀ w ∈ x.words, w.Allowed answer) (stamp : Nat) (s : σ) :
    Made { text, rules : Label σ } ∧
      Made { text, rules, kept? := some ⟨x.tree 0, stamp⟩ : Label σ } := by
  let fresh : Label σ := { text, rules }
  obtain ⟨r, valid⟩ := Rules.validate_yields steady within allowed s
  have checked : (rules.label text).on s = (.ok fresh, r) := by
    rw [Rules.label, spells, Run.on_bind, valid]
    rfl
  obtain ⟨u, parsed⟩ := Rules.parse_yields steady within allowed r
  have keeps : (fresh.keep stamp).on r =
      (.ok ({ fresh with kept? := some ⟨x.tree 0, stamp⟩ }, x.tree 0), u) := by
    show (rules.parse (Text.Utf8.bytes text) >>= _).on r = _
    rw [spells, Run.on_bind, parsed]
    rfl
  exact ⟨.ofText checked, .kept (.ofText checked) keeps⟩

namespace Grants

variable {grants : Grants σ} {f : Lookup σ → Run σ Bool}

theorem ofSets_ne_sets_nil (sets : List Held) : (ofSets sets : Grants σ) ≠ .sets [] := by
  cases sets <;> nofun

/-- What is decided has been decided with a first lookup. -/
theorem exists_of_decide (tries : grants ≠ .sets []) {s t : σ} {opens : Bool}
    (ok : (grants.decide f).on s = (.ok opens, t)) :
    ∃ lookup first u, (f lookup).on s = (.ok first, u) := by
  match grants, tries with
  | .sets [], tries => exact absurd rfl tries
  | .sets (set :: more), _ =>
    obtain ⟨first, u, found, _⟩ := Run.on_bind_eq_ok.mp ok
    exact ⟨_, first, u, found⟩
  | .authority ask, _ => exact ⟨_, opens, t, ok⟩

end Grants

namespace Gate

variable {gate : Gate σ} {label : List UInt8} {s t : σ} {opens : Bool}

/-- The same gate, with another limit. -/
def withLimit (gate : Gate σ) (limit : UInt32) : Gate σ :=
  { gate with rules := { gate.rules with limit } }

/-- What a gate decides from its text nests within the limit of the gate. -/
theorem nesting_le_of_decide (tries : gate.grants ≠ .sets [])
    (ok : (gate.decide label).on s = (.ok opens, t)) :
    nesting label ≤ gate.rules.limit.toNat := by
  obtain ⟨_, _, _, read⟩ := Grants.exists_of_decide tries ok
  exact nesting_le_of_read read

/-- The limit of a gate has no say over a label whose tree is kept: it is decided as by a gate
with the limit that the label was checked by. -/
theorem decideLabel_of_kept (gate : Gate σ) {x : Label σ} {kept : KeptTree} (made : x.Made)
    (present : x.kept? = some kept) :
    gate.decideLabel x = (gate.withLimit x.rules.limit).decide x.bytes := by
  rw [decideLabel, present]
  exact (gate.withLimit x.rules.limit).decideTree_eq_decide (made.keeps kept present)
    made.nesting_le

/-- What a gate makes of a label that nests deeper than the gate lets it. As long as no tree of
the label is kept it is refused, whatever is held. Once a tree is kept the limit of the gate has no
say: the label is decided as by a gate with the limit that it was checked by. -/
theorem decideLabel_beyond_limit {x : Label σ} (made : x.Made) (tries : gate.grants ≠ .sets [])
    (beyond : gate.rules.limit.toNat < nesting x.bytes) :
    (x.kept? = none → ∀ s, ∃ fault t, (gate.decideLabel x).on s = (.error fault, t)) ∧
    ∀ kept, x.kept? = some kept →
      gate.decideLabel x = (gate.withLimit x.rules.limit).decide x.bytes := by
  constructor
  · intro absent s
    rw [decideLabel, absent]
    rcases decided : (gate.decide x.bytes).on s with ⟨fault | opens, t⟩
    · exact ⟨fault, t, rfl⟩
    · exact absurd beyond (Nat.not_lt.mpr (nesting_le_of_decide tries decided))
  · exact fun kept present => gate.decideLabel_of_kept made present

/-- The label `(A)`, checked by the standard rules, before its tree has been asked for and
after. -/
theorem made_parenthesis :
    Label.Made { text := "(A)", rules := {} : Label Unit } ∧
      Label.Made { text := "(A)", rules := {}, kept? := some ⟨.leaf ⟨1, 2⟩ false "A", 0⟩
                   : Label Unit } := by
  let a : Word := .spell "A" (by decide)
  let x : Expression := .single (.enclosed (.single (.word a)))
  have steady : ({} : Rules Unit).policy.Steady (isOrdinary Text.categories) := fun _ _ _ => rfl
  have allowed : ∀ w ∈ x.words, w.Allowed (isOrdinary Text.categories) :=
    List.forall_mem_singleton.mpr (Word.allowed_spell _ rfl)
  have tree : x.tree 0 = .leaf ⟨1, 2⟩ false "A" :=
    congrArg (Tree.leaf ⟨1, 2⟩ false) (Word.value_spell "A" (by decide))
  rw [← tree]
  exact Label.made_of_allowed steady (by decide) (by decide) allowed 0 ()

/-- That label before a gate that has no room for parentheses and holds `A`. -/
theorem decideLabel_beyond_limit_parenthesis :
    let gate : Gate Unit := Rules.gate { limit := 0 } (Held.ofList ["A"])
    ∃ fresh kept : Label Unit, fresh.Made ∧ fresh.text = "(A)" ∧ fresh.kept? = none ∧
      kept.Made ∧ kept.text = "(A)" ∧ kept.kept?.isSome = true ∧ gate.grants ≠ .sets [] ∧
      gate.rules.limit.toNat < nesting (Text.Utf8.bytes "(A)") ∧
      (∃ fault t, (gate.decideLabel fresh).on () = (.error fault, t)) ∧
      gate.decideLabel kept = (gate.withLimit kept.rules.limit).decide kept.bytes := by
  intro gate
  obtain ⟨fresh, kept⟩ := made_parenthesis
  have tries : gate.grants ≠ .sets [] := Grants.ofSets_ne_sets_nil _
  have beyond : gate.rules.limit.toNat < nesting (Text.Utf8.bytes "(A)") := by decide
  exact ⟨_, _, fresh, rfl, rfl, kept, rfl, rfl, tries, beyond,
    (gate.decideLabel_beyond_limit fresh tries beyond).1 rfl (),
    (gate.decideLabel_beyond_limit kept tries beyond).2 _ rfl⟩

/-- Not every gate refuses what nests deeper than it lets. -/
theorem not_refused_beyond_limit :
    ¬ ∀ (gate : Gate Unit) (x : Label Unit), x.Made → gate.grants ≠ .sets [] →
      gate.rules.limit.toNat < nesting x.bytes →
        ∀ s, ∃ fault t, (gate.decideLabel x).on s = (.error fault, t) := by
  intro refused
  let gate : Gate Unit := Rules.gate { limit := 0 } (Held.ofList ["A"])
  obtain ⟨fault, t, failed⟩ :=
    refused gate _ made_parenthesis.2 (Grants.ofSets_ne_sets_nil _) (by decide) ()
  have opens : (gate.decideTree (Text.Utf8.bytes "(A)") (.leaf ⟨1, 2⟩ false "A")).on () =
      (.ok true, ()) := rfl
  cases opens.symm.trans failed

end Gate

end Clearance
