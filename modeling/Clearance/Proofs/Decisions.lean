import Clearance.Proofs.Meaning

/-! What gates decide. Each set that is held, and each authority whose answers depend on the value
alone, stands for the values that it counts as held, and a gate opens to a label if the tree of the
label holds for all of them. -/
namespace Clearance

variable {σ : Type} {answer : String → Charset → Bool}

/-- An authority whose answers depend on the value alone, whatever it does to its state. -/
def Authority.Steady (ask : Authority σ) (held : String → Bool) : Prop :=
  ∀ value s, (ask value s).1 = held value

/-- The sets that a gate tries. No set at all counts as one that holds nothing. -/
def Held.tried (sets : List Held) : List Held := if sets.isEmpty then [.empty] else sets

open Grammar

/-- Lookups that tell of each word whether its value is held, in every state. -/
def Lookup.Tells (lookup : Lookup σ) (held : String → Bool) : Prop :=
  ∀ w : Word, w.value? = some w.value → Finds lookup held w

theorem Authority.Steady.tells {ask : Authority σ} {held : String → Bool}
    (steady : ask.Steady held) : (Lookup.ofAuthority ask).Tells held := by
  intro w _ s
  rw [Run.on_lift, Lookup.ofAuthority, steady]
  exact ⟨_, rfl⟩

namespace Grants

variable {f : Lookup σ → Run σ Bool} {opens : (String → Bool) → Bool}

/-- What grants count as held: one test for each lookup that has to open a label. -/
inductive Judges : Grants σ → List (String → Bool) → Prop where
  | sets (all : List Held) : Judges (.sets (all.map Held.bodies)) (all.map Held.contains)
  | authority {ask : Authority σ} {held : String → Bool} (steady : ask.Steady held) :
      Judges (.authority ask) [held]

theorem judges_ofSets (sets : List Held) :
    Judges (ofSets sets : Grants σ) ((Held.tried sets).map Held.contains) := by
  have same : (ofSets sets : Grants σ) = .sets ((Held.tried sets).map Held.bodies) := by
    cases sets <;> rfl
  rw [same]
  exact .sets _

/-- One set after the other is tried, up to the first that does not open. -/
theorem decideSets_yields (each : ∀ {lookup : Lookup σ} {held : String → Bool},
      lookup.Tells held → Run.Yields (f lookup) (opens held)) : ∀ all : List Held,
    Run.Yields (decideSets f (all.map Held.bodies)) (all.all fun set => opens set.contains)
  | [] => Run.yields_pure true
  | set :: more => by
    rw [List.map_cons, decideSets, List.all_cons]
    refine (each fun _ text => finds_inSet set text).bind ?_
    cases opens set.contains with
    | true => exact decideSets_yields each more
    | false => exact Run.yields_pure false

theorem Judges.decide_yields {grants : Grants σ} {tests : List (String → Bool)}
    (judges : grants.Judges tests) (each : ∀ {lookup : Lookup σ} {held : String → Bool},
      lookup.Tells held → Run.Yields (f lookup) (opens held)) :
    Run.Yields (grants.decide f) (tests.all opens) := by
  cases judges with
  | sets all =>
    rw [List.all_map]
    exact decideSets_yields each all
  | authority steady =>
    rw [List.all_cons, List.all_nil, Bool.and_true]
    exact each steady.tells

end Grants

namespace Gate

variable {gate : Gate σ} {tests : List (String → Bool)}

/-- A gate opens to a label that passes if its tree holds by each of the tests. -/
theorem decide_yields (steady : gate.rules.policy.Steady answer)
    (judges : gate.grants.Judges tests) {x : Expression}
    (within : x.depth ≤ gate.rules.limit.toNat) (allowed : ∀ w ∈ x.words, w.Allowed answer) :
    Run.Yields (gate.decide x.text) (tests.all fun held => (x.tree 0).holds held) := by
  refine judges.decide_yields fun tells => ?_
  rw [Rules.read, read_text x within]
  exact x.replay_deciding steady true 0 allowed fun w member => tells w (allowed w member).text

/-- Without any byte a label opens to everyone. -/
theorem decide_empty (judges : gate.grants.Judges tests) : Run.Yields (gate.decide []) true := by
  have all : (tests.all fun _ => true) = true := List.all_eq_true.mpr fun _ _ => rfl
  rw [← all]
  exact judges.decide_yields fun _ => Run.yields_pure true

end Gate

end Clearance
