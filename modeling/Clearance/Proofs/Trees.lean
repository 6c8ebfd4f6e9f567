import Clearance.Proofs.Acceptance
import Clearance.Proofs.Words
import Clearance.Rules

/-! What the readings that check and that build make of a derivation. Both put its words to the
policy, one after the other, and do nothing else that could fail; the tree is then that of the
derivation. -/
namespace Clearance

variable {σ : Type}

namespace Grammar

namespace Word

/-- Puts a word to a policy. -/
def audit (policy : Policy σ) (w : Word) : Run σ Unit := do
  let _ ← policy.accept (w.token 0)

theorem accept_token (policy : Policy σ) (w : Word) (offset : Nat) :
    policy.accept (w.token offset) = (fun _ => w.value) <$> w.audit policy := by
  have charset : ∀ at_, (w.token at_).charset = w.charset := fun _ => rfl
  simp only [audit, Policy.accept, value_token, charset, value]
  cases w.value? with
  | none => rfl
  | some v =>
    show policy.check v w.charset = (fun _ => v) <$> (policy.check v w.charset >>= fun _ => pure ())
    simp only [Policy.check, map_eq_pure_bind, bind_assoc]
    apply bind_congr
    intro allowed
    cases allowed <;> rfl

end Word

/-- Puts words to a policy, in their order, up to the first that it refuses. -/
def audit (policy : Policy σ) : List Word → Run σ Unit
  | [] => pure ()
  | w :: ws => do
    w.audit policy
    audit policy ws

namespace Word

theorem accept_of_value {w : Word} {v : String} (text : w.value? = some v) (policy : Policy σ)
    (offset : Nat) : policy.accept (w.token offset) = policy.check v w.charset := by
  rw [Policy.accept, value_token, text]
  rfl

/-- A word that passes stands for text. -/
theorem value?_of_audit {policy : Policy σ} {w : Word} {s t : σ}
    (passed : (w.audit policy).on s = (.ok (), t)) : w.value? = some w.value := by
  cases text : w.value? with
  | some v => rw [value, text]; rfl
  | none =>
    rw [audit, Policy.accept, value_token, text] at passed
    cases passed

end Word

theorem audit_cons_ok {policy : Policy σ} {w : Word} {ws : List Word} {s u : σ}
    (passed : (audit policy (w :: ws)).on s = (.ok (), u)) :
    ∃ t, (w.audit policy).on s = (.ok (), t) ∧ (audit policy ws).on t = (.ok (), u) := by
  obtain ⟨_, t, first, rest⟩ := Run.on_bind_eq_ok.mp passed
  exact ⟨t, first, rest⟩

theorem value?_of_audit {policy : Policy σ} {ws : List Word} {s t : σ}
    (passed : (audit policy ws).on s = (.ok (), t)) : ∀ w ∈ ws, w.value? = some w.value := by
  induction ws generalizing s with
  | nil =>
    intro w member
    cases member
  | cons w ws ih =>
    obtain ⟨r, first, rest⟩ := audit_cons_ok passed
    exact List.forall_mem_cons.mpr ⟨Word.value?_of_audit first, ih rest⟩

theorem audit_append (policy : Policy σ) (ws vs : List Word) :
    audit policy (ws ++ vs) = audit policy ws >>= fun _ => audit policy vs := by
  induction ws with
  | nil => simp only [List.nil_append, audit, pure_bind]
  | cons w ws ih => simp only [List.cons_append, audit, ih, bind_assoc]

theorem audit_singleton (policy : Policy σ) (w : Word) : audit policy [w] = w.audit policy := by
  simp only [audit]
  exact bind_pure _

mutual

/-- The tree of an expression that begins at `offset`. -/
def Expression.tree (offset : Nat) : Expression → Tree
  | .single t => t.tree offset
  | .group op first others =>
    .group op ⟨offset, offset + first.text.length + (others.text op).length⟩
      (first.tree offset :: others.trees (offset + first.text.length))

def Term.tree (offset : Nat) : Term → Tree
  | .word w => .leaf ⟨offset, offset + w.text.length⟩ w.isQuoted w.value
  | .enclosed x => x.tree (offset + 1)

/-- The trees of the members; `offset` is that of the connective before the first of them. -/
def Members.trees (offset : Nat) : Members → List Tree
  | .last t => [t.tree (offset + 1)]
  | .more t others => t.tree (offset + 1) :: others.trees (offset + 1 + t.text.length)

end

mutual

theorem Expression.replay_checking (policy : Policy σ) : ∀ (x : Expression) (live : Bool)
    (offset : Nat), x.replay (.checking policy) live offset = audit policy x.words
  | .single t, live, offset => t.replay_checking policy live offset
  | .group op first others, live, offset => by
    rw [Expression.words, audit_append, ← first.replay_checking policy live offset,
      ← others.replay_checking policy live (offset + first.text.length)]
    apply bind_congr
    intro _
    exact bind_pure (others.replay (.checking policy) live (offset + first.text.length) ())

theorem Term.replay_checking (policy : Policy σ) : ∀ (t : Term) (live : Bool)
    (offset : Nat), t.replay (.checking policy) live offset = audit policy t.words
  | .word w, live, offset => by
    rw [Term.words, audit_singleton]
    show policy.accept (w.token offset) >>= (fun _ => pure ()) = w.audit policy
    rw [w.accept_token policy offset, bind_map_left, bind_pure]
  | .enclosed x, live, offset => x.replay_checking policy live (offset + 1)

theorem Members.replay_checking (policy : Policy σ) : ∀ (ms : Members) (live : Bool)
    (offset : Nat), ms.replay (.checking policy) live offset () = audit policy ms.words
  | .last t, live, offset => by
    rw [Members.replay_last rfl, Members.words,
      ← t.replay_checking policy (live && true) (offset + 1)]
    exact bind_pure (t.replay (.checking policy) (live && true) (offset + 1))
  | .more t others, live, offset => by
    rw [Members.replay_more, Members.replay_last rfl, Members.words, audit_append,
      ← t.replay_checking policy (live && true) (offset + 1),
      ← others.replay_checking policy live (offset + 1 + t.text.length), bind_assoc]
    rfl

end

mutual

theorem Expression.replay_building (policy : Policy σ) : ∀ (x : Expression) (live : Bool)
    (offset : Nat), x.replay (.building policy) live offset =
      (fun _ => x.tree offset) <$> audit policy x.words
  | .single t, live, offset => t.replay_building policy live offset
  | .group op first others, live, offset => by
    let span : Span := ⟨offset, offset + first.text.length + (others.text op).length⟩
    let start := offset + first.text.length
    calc
      _ = (first.replay (.building policy) live offset >>= fun node =>
            others.replay (.building policy) live start (op, #[node]) >>= fun group =>
              pure (Tree.group group.1 span group.2.toList)) := rfl
      _ = (audit policy first.words >>= fun _ => audit policy others.words >>= fun _ =>
            pure (Tree.group op span
              (#[first.tree offset] ++ (others.trees start).toArray).toList)) := by
        simp only [first.replay_building policy, others.replay_building policy, bind_map_left]
      _ = _ := by
        rw [Expression.words, audit_append, map_eq_pure_bind, bind_assoc, Array.toList_append]
        rfl

theorem Term.replay_building (policy : Policy σ) : ∀ (t : Term) (live : Bool)
    (offset : Nat), t.replay (.building policy) live offset =
      (fun _ => t.tree offset) <$> audit policy t.words
  | .word w, live, offset => by
    rw [Term.words, audit_singleton, map_eq_pure_bind]
    show (policy.accept (w.token offset) >>= fun v => pure (Tree.leaf _ _ v)) = _
    rw [w.accept_token policy offset, bind_map_left]
    rfl
  | .enclosed x, live, offset => x.replay_building policy live (offset + 1)

theorem Members.replay_building (policy : Policy σ) (op : Connective) : ∀ (ms : Members)
    (live : Bool) (offset : Nat) (sofar : Array Tree),
      ms.replay (.building policy) live offset (op, sofar) =
        (fun _ => (op, sofar ++ (ms.trees offset).toArray)) <$> audit policy ms.words
  | .last t, live, offset, sofar => by
    calc
      _ = (t.replay (.building policy) (live && true) (offset + 1) >>= fun node =>
            pure (op, sofar.push node)) := Members.replay_last rfl live offset t
      _ = _ := by
        rw [t.replay_building policy, bind_map_left, Members.words, map_eq_pure_bind]
        rfl
  | .more t others, live, offset, sofar => by
    calc
      _ = (t.replay (.building policy) (live && true) (offset + 1) >>= fun node =>
            others.replay (.building policy) live (offset + 1 + t.text.length)
              (op, sofar.push node)) := by
        rw [Members.replay_more, Members.replay_last rfl, bind_assoc]
        rfl
      _ = _ := by
        simp only [t.replay_building policy, others.replay_building policy, Members.words,
          audit_append, map_eq_pure_bind, bind_assoc, pure_bind]
        apply bind_congr
        intro _
        apply bind_congr
        intro _
        simp [Members.trees]

end

end Grammar

open Grammar

namespace Rules

variable {rules : Rules σ} {label : List UInt8} {s t : σ}

theorem validate_text (rules : Rules σ) {x : Expression} (within : x.depth ≤ rules.limit.toNat) :
    rules.validate x.text = audit rules.policy x.words := by
  rw [validate, read, read_text x within, x.replay_checking]

theorem parse_text (rules : Rules σ) {x : Expression} (within : x.depth ≤ rules.limit.toNat) :
    rules.parse x.text = (fun _ => x.tree 0) <$> audit rules.policy x.words := by
  rw [parse, read, read_text x within, x.replay_building]

/-- A label that passes is empty, or derivable within the limit from words that pass. -/
theorem validate_ok (valid : (rules.validate label).on s = (.ok (), t)) :
    label = [] ∨ ∃ x : Expression, x.text = label ∧ x.depth ≤ rules.limit.toNat ∧
      (audit rules.policy x.words).on s = (.ok (), t) := by
  rcases read_ok valid with empty | ⟨x, rfl, within⟩
  · exact Or.inl empty
  · rw [rules.validate_text within] at valid
    exact Or.inr ⟨x, rfl, within, valid⟩

/-- A label with a tree is empty, or the tree is that of its derivation. -/
theorem parse_ok {tree : Tree} (parsed : (rules.parse label).on s = (.ok tree, t)) :
    label = [] ∧ tree = .empty ∨ ∃ x : Expression, x.text = label ∧
      x.depth ≤ rules.limit.toNat ∧ x.tree 0 = tree ∧
      (audit rules.policy x.words).on s = (.ok (), t) := by
  rcases read_ok parsed with rfl | ⟨x, rfl, within⟩
  · cases parsed
    exact Or.inl ⟨rfl, rfl⟩
  · rw [rules.parse_text within, Run.on_map] at parsed
    generalize passed : (audit rules.policy x.words).on s = outcome at parsed
    obtain ⟨_ | _, _⟩ := outcome <;> cases parsed
    exact Or.inr ⟨x, rfl, within, rfl, passed⟩

end Rules

/-- A tree of a label: the label is empty, or derived from words that stand for text. -/
def Tree.IsOf (tree : Tree) (label : List UInt8) : Prop :=
  label = [] ∧ tree = .empty ∨ ∃ x : Expression, x.text = label ∧ x.tree 0 = tree ∧
    ∀ w ∈ x.words, w.value? = some w.value

theorem Rules.isOf_of_parse {rules : Rules σ} {label : List UInt8} {tree : Tree} {s t : σ}
    (parsed : (rules.parse label).on s = (.ok tree, t)) : tree.IsOf label := by
  rcases rules.parse_ok parsed with empty | ⟨x, text, _, same, passed⟩
  · exact Or.inl empty
  · exact Or.inr ⟨x, text, same, value?_of_audit passed⟩

/-- A label has no two trees. -/
theorem Tree.IsOf.unique {label : List UInt8} {a b : Tree} (first : a.IsOf label)
    (second : b.IsOf label) : a = b := by
  rcases first with ⟨rfl, rfl⟩ | ⟨x, rfl, rfl, _⟩
  · rcases second with ⟨_, rfl⟩ | ⟨y, text, _, _⟩
    · rfl
    · exact absurd text y.text_ne_nil
  · rcases second with ⟨empty, _⟩ | ⟨y, text, rfl, _⟩
    · exact absurd empty x.text_ne_nil
    · rw [Expression.text_injective text]

end Clearance
