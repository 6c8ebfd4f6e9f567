import Clearance.Label
import Clearance.Proofs.Steady

/-! What a label mentions. Whether its words are gathered while it is read or from its tree, they
are the same, in the same order. -/
namespace Clearance

variable {σ τ : Type} {policy : Policy σ} {answer : String → Charset → Bool}
  {collect : String → τ → τ}

/-- Beside whatever state, a run ends well and takes what has been gathered so far by `g`. -/
def Run.Gathers (x : Run (σ × τ) Unit) (g : τ → τ) : Prop :=
  ∀ s t, ∃ s', x.on (s, t) = (.ok (), (s', g t))

theorem Run.gathers_pure : Run.Gathers (pure () : Run (σ × τ) Unit) id :=
  fun s _ => ⟨s, rfl⟩

theorem Run.Gathers.bind {x : Run (σ × τ) Unit} {f : Unit → Run (σ × τ) Unit} {g h : τ → τ}
    (first : Run.Gathers x g) (second : Run.Gathers (f ()) h) : Run.Gathers (x >>= f) (h ∘ g) := by
  intro s t
  obtain ⟨r, hx⟩ := first s t
  obtain ⟨u, hf⟩ := second r (g t)
  exact ⟨u, by rw [Run.on_bind, hx]; exact hf⟩

namespace Grammar

/-- Gathers the values of words, in their order. -/
def gather (collect : String → τ → τ) (ws : List Word) (t : τ) : τ :=
  ws.foldl (fun t w => collect w.value t) t

theorem gather_append (collect : String → τ → τ) (ws vs : List Word) :
    gather collect (ws ++ vs) = gather collect vs ∘ gather collect ws := by
  funext t
  exact List.foldl_append

theorem Word.Allowed.gathers (steady : policy.Steady answer) {w : Word} (allowed : w.Allowed answer)
    (offset : Nat) (live : Bool) :
    Run.Gathers ((Interpretation.visiting policy collect).leaf (w.token offset) live)
      (gather collect [w]) := by
  intro s t
  have passes : policy.beside w.value w.charset (s, t) =
      (true, ((policy w.value w.charset s).2, t)) :=
    Prod.ext ((steady w.value w.charset s).trans allowed.allowed) rfl
  refine ⟨(policy w.value w.charset s).2, ?_⟩
  show Run.on (policy.beside.accept (w.token offset) >>= _) (s, t) = _
  rw [Word.accept_of_value allowed.text, Policy.check, bind_assoc, Run.on_bind, Run.on_lift, passes]
  rfl

mutual

/-- A visit to an expression whose words are all allowed gathers their values. -/
theorem Expression.replay_visiting (steady : policy.Steady answer) : ∀ (x : Expression)
    (live : Bool) (offset : Nat), (∀ w ∈ x.words, w.Allowed answer) →
      Run.Gathers (x.replay (.visiting policy collect) live offset) (gather collect x.words)
  | .single t, live, offset, allowed => t.replay_visiting steady live offset allowed
  | .group op first others, live, offset, allowed => by
    obtain ⟨firstAllowed, othersAllowed⟩ := List.forall_mem_append.mp allowed
    have begun := first.replay_visiting steady live offset firstAllowed
    have ended := others.replay_visiting steady live (offset + first.text.length) othersAllowed
    rw [Expression.words, gather_append]
    exact begun.bind (ended.bind Run.gathers_pure)

theorem Term.replay_visiting (steady : policy.Steady answer) : ∀ (t : Term)
    (live : Bool) (offset : Nat), (∀ w ∈ t.words, w.Allowed answer) →
      Run.Gathers (t.replay (.visiting policy collect) live offset) (gather collect t.words)
  | .word w, live, offset, allowed => (allowed w List.mem_cons_self).gathers steady offset live
  | .enclosed x, live, offset, allowed => x.replay_visiting steady live (offset + 1) allowed

theorem Members.replay_visiting (steady : policy.Steady answer) : ∀ (ms : Members)
    (live : Bool) (offset : Nat), (∀ w ∈ ms.words, w.Allowed answer) →
      Run.Gathers (ms.replay (.visiting policy collect) live offset ()) (gather collect ms.words)
  | .last t, live, offset, allowed => by
    have member := t.replay_visiting steady (live && true) (offset + 1) allowed
    rw [Members.replay_last rfl]
    exact member.bind Run.gathers_pure
  | .more t others, live, offset, allowed => by
    obtain ⟨hereAllowed, othersAllowed⟩ := List.forall_mem_append.mp allowed
    have member := t.replay_visiting steady (live && true) (offset + 1) hereAllowed
    have later := others.replay_visiting steady live (offset + 1 + t.text.length) othersAllowed
    rw [Members.replay_more, Members.replay_last rfl, Members.words, gather_append]
    exact (member.bind Run.gathers_pure).bind later

end

mutual

/-- The leaves of a tree have the values of the words that it was read from. -/
theorem Expression.values_tree : ∀ (x : Expression) (offset : Nat),
    (x.tree offset).values = x.words.map Word.value
  | .single t, offset => t.values_tree offset
  | .group op first others, offset => by
    rw [Expression.tree, Tree.values, Tree.memberValues, first.values_tree, others.values_trees,
      Expression.words, List.map_append]

theorem Term.values_tree : ∀ (t : Term) (offset : Nat),
    (t.tree offset).values = t.words.map Word.value
  | .word _, _ => rfl
  | .enclosed x, offset => x.values_tree (offset + 1)

theorem Members.values_trees : ∀ (ms : Members) (offset : Nat),
    Tree.memberValues (ms.trees offset) = ms.words.map Word.value
  | .last t, offset => by
    rw [Members.trees, Tree.memberValues, t.values_tree, Tree.memberValues, List.append_nil,
      Members.words]
  | .more t others, offset => by
    rw [Members.trees, Tree.memberValues, t.values_tree, others.values_trees, Members.words,
      List.map_append]

end

end Grammar

open Grammar

/-- What a label mentions that keeps no tree is what a visit to its text gathers. -/
theorem Label.mentions_of_fresh {x : Label σ} (fresh : x.kept? = none) {s t : σ}
    {outcome : Except Fault Unit} {held : Held}
    (run : (x.rules.visit x.bytes Held.insert).on (s, Held.empty) = (outcome, (t, held))) :
    x.mentions.on s = (outcome.map fun _ => held, t) := by
  have asked : Run.on (get : Run σ σ) s = (.ok s, s) := rfl
  rw [mentions, fresh, Run.on_bind, asked]
  simp only [run]
  cases outcome <;> rfl

/-- What rules come to, by each way to read it, for a label that has this tree. -/
structure Rules.Computes (rules : Rules σ) (label : List UInt8) (tree : Tree) : Prop where
  parse : Run.Yields (rules.parse label) tree
  normalize : Run.Yields (rules.normalize label) tree.normalized
  visit (s : σ) : ∃ t, (rules.visit label Held.insert).on (s, Held.empty) =
    (.ok (), (t, Held.ofList tree.values))

/-- Whatever passes rules whose answers depend on the questions alone has a tree, and all readings
agree on it. -/
theorem Rules.exists_computes {rules : Rules σ} {label : List UInt8} {s t : σ}
    (steady : rules.policy.Steady answer) (valid : (rules.validate label).on s = (.ok (), t)) :
    ∃ tree, rules.Computes label tree := by
  have normalizes : ∀ {tree : Tree}, Run.Yields (rules.parse label) tree →
      Run.Yields (rules.normalize label) tree.normalized := fun parsed =>
    parsed.bind (Run.yields_pure _)
  rcases rules.validate_ok valid with rfl | ⟨x, rfl, within, passed⟩
  · have parsed : Run.Yields (rules.parse []) .empty := fun s => ⟨s, rfl⟩
    exact ⟨.empty, parsed, normalizes parsed, fun s => ⟨s, rfl⟩⟩
  · have allowed := allowed_of_audit steady passed
    have parsed := rules.parse_yields steady within allowed
    refine ⟨x.tree 0, parsed, normalizes parsed, fun s => ?_⟩
    have same : Held.ofList (x.tree 0).values = gather Held.insert x.words Held.empty := by
      rw [x.values_tree, Held.ofList, List.foldl_map]
      rfl
    rw [Rules.visit, read_text x within, same]
    exact x.replay_visiting steady true 0 allowed s Held.empty

end Clearance
