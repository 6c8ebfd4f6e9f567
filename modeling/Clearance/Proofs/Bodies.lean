import Clearance.Proofs.Meaning
import Clearance.Proofs.Sources
import Clearance.Proofs.Tokens
import Clearance.Proofs.Verdict

/-! Lookups by body. What is held is kept as the bodies of its values, and a token is looked up by
the body that stands in the label. A value has one body in whatever way it is written, and a leaf
of a tree finds the body of its token again, so this is to ask whether the value is held. -/
namespace Clearance

open Grammar Text.Utf8

/-- How a token that stands for `v` is found in what is held, be it while the label is read or from
a leaf with the span of the token. -/
structure Token.FoundBy (label : List UInt8) (t : Token) (v : String) : Prop where
  body_eq : t.body = Escape.escape (bytes v)
  leafBody_eq : Tree.leafBody label t.span t.quoted = t.body
  contains_eq (held : Held) : held.bodies.contains t.body = held.contains v
  read_eq {σ : Type} (rules : Rules σ) (held : Held) :
    (rules.gate held).grants.decide (fun lookup =>
      (Interpretation.deciding rules.policy lookup).leaf t true) =
    rules.policy.check v t.charset >>= fun _ => pure (held.contains v)
  walk_eq {σ : Type} (rules : Rules σ) (held : Held) :
    (rules.gate held).decideTree label (.leaf t.span t.quoted v) =
    rules.policy.check v t.charset >>= fun _ => pure (held.contains v)

/-- A gate with one set looks up in the bodies of that set. -/
theorem Rules.decide_gate {σ : Type} (rules : Rules σ) (held : Held) (f : Lookup σ → Run σ Bool) :
    (rules.gate held).grants.decide f = f (.inSet held.bodies) :=
  Grants.decideSets_singleton f held.bodies

namespace Grammar

/-- A word that stands in a label is found by its value. -/
theorem Word.foundBy_token {w : Word} {label : List UInt8} {offset : Nat} {v : String}
    (stands : w.text <+: label.drop offset) (known : w.value? = some v) :
    (w.token offset).FoundBy label v := by
  have body := w.body_eq known
  have leafBody : Tree.leafBody label (w.token offset).span w.isQuoted = w.body :=
    w.leafBody_eq stands
  have contains : ∀ held : Held, held.bodies.contains w.body = held.contains v := by
    intro held
    rw [body, held.contains_bodies]
  refine ⟨body, leafBody, contains, fun rules held => ?_, fun rules held => ?_⟩
  · rw [rules.decide_gate]
    show (rules.policy.accept (w.token offset) >>= fun _ =>
      pure (held.bodies.contains w.body)) = _
    rw [w.accept_of_value known, contains]
    rfl
  · rw [Gate.decideTree, rules.decide_gate]
    show (rules.policy.check v w.charset >>= fun _ =>
      pure (held.bodies.contains (Tree.leafBody label (w.token offset).span w.isQuoted))) = _
    rw [leafBody, contains]
    rfl

/-- A leaf was read from a token that is found by the value of the leaf. -/
theorem Expression.exists_foundBy {x : Expression} {depth : Nat} {span : Span} {quoted : Bool}
    {value : String} (values : ∀ w ∈ x.words, w.value? = some w.value)
    (node : (depth, .leaf span quoted value) ∈ (x.tree 0).nodes 0) :
    ∃ token ∈ x.tokens 0, token.span = span ∧ token.quoted = quoted ∧
      token.FoundBy x.text value := by
  obtain ⟨start, w, isPart, rfl, rfl, rfl⟩ := exists_isPart_word node
  have known := values w (isPart.words_subset List.mem_cons_self)
  exact ⟨w.token start, isPart.tokens_subset List.mem_cons_self, rfl, rfl,
    Word.foundBy_token isPart.stands known⟩

end Grammar

/-- To look up a token by its body is to ask whether its value is held. No two values have one body;
a token of a label, wherever it stands and however it is spelled, is found by its value; and each
leaf of a tree finds the body of the token that it was read from. -/
theorem Token.found_by_value (label : List UInt8) :
    (∀ xs ys : List UInt8, Escape.escape xs = Escape.escape ys → xs = ys) ∧
    (∀ {c next : Cursor label} {t : Token} {v : String}, c.token = (.ok t, next) →
      t.value = .ok v → t.FoundBy label v) ∧
    ∀ {σ : Type} {rules : Rules σ} {tree : Tree} {s s' : σ},
      (rules.parse label).on s = (.ok tree, s') →
        ∀ {depth : Nat} {span : Span} {quoted : Bool} {value : String},
          (depth, .leaf span quoted value) ∈ tree.nodes 0 →
            ∃ token ∈ delivered rules.limit label, token.span = span ∧ token.quoted = quoted ∧
              token.FoundBy label value := by
  refine ⟨fun _ _ => Escape.escape_injective, ?_, ?_⟩
  · intro c next t v scanned known
    obtain ⟨w, stands, _, rfl, _⟩ := Cursor.token_sound scanned
    rw [c.rest_eq] at stands
    exact Word.foundBy_token stands (Word.value?_of_token known)
  · intro σ rules tree s s' parsed depth span quoted value node
    rcases rules.parse_ok parsed with ⟨_, rfl⟩ | ⟨x, rfl, within, rfl, passed⟩
    · cases List.mem_singleton.mp node
    · rw [Expression.delivered_text within]
      exact Expression.exists_foundBy (value?_of_audit passed) node

/-- In `"A"|A` both tokens, and both leaves, are found by `A`. -/
theorem Token.found_by_value_spellings :
    let rules : Rules Nat := { policy? := some fun _ _ n => (true, n + 1) }
    let label : List UInt8 := bytes "\"A\"|A"
    let tree : Tree := .group .or ⟨0, 5⟩ [.leaf ⟨0, 3⟩ true "A", .leaf ⟨4, 5⟩ false "A"]
    let c : Cursor label := (Cursor.start label).advance 4
    let t : Token :=
      { text := [0x41], body := [0x41], span := ⟨4, 5⟩, quoted := false, escapes := false }
    c.token = (.ok t, c.advance 1) ∧ t.value = .ok "A" ∧ t.FoundBy label "A" ∧
      (∃ s, (rules.parse label).on 0 = (.ok tree, s)) ∧
      (1, .leaf ⟨0, 3⟩ true "A") ∈ tree.nodes 0 ∧
      ∃ token ∈ delivered rules.limit label, token.span = ⟨0, 3⟩ ∧ token.quoted = true ∧
        token.FoundBy label "A" := by
  intro rules label tree c t
  let a : Word := .spell "A" (by decide)
  let quoted : Word := .quoted [0x41] (by decide) (.plain (by decide) .nil)
  let x : Expression := .group .or (.word quoted) (.last (.word a))
  have text : label = x.text := by decide
  have scanned : c.token = (.ok t, c.advance 1) := rfl
  have known : t.value = .ok "A" := by
    have spelled : (a.token 4).value = .ok "A" := by rw [a.value_token, Word.value?_spell]
    exact spelled
  have value : quoted.value? = some "A" := decode?_eq_some.mpr (by decide)
  have steady : rules.policy.Steady (fun _ _ => true) := fun _ _ _ => rfl
  have allowed : ∀ w ∈ x.words, w.Allowed (fun _ _ => true) := by
    show ∀ w ∈ [quoted, a], _
    rw [List.forall_mem_cons, List.forall_mem_singleton]
    exact ⟨Word.allowed_of_value value rfl, Word.allowed_spell _ rfl⟩
  have same : x.tree 0 = tree := by
    show Tree.group .or ⟨0, 5⟩ [.leaf ⟨0, 3⟩ true quoted.value, .leaf ⟨4, 5⟩ false a.value] = tree
    rw [Word.value, value, Word.value_spell]
    rfl
  obtain ⟨s, parsed⟩ := Rules.parse_yields steady (x := x) (by decide) allowed 0
  rw [← text, same] at parsed
  have node : (1, .leaf ⟨0, 3⟩ true "A") ∈ tree.nodes 0 := List.mem_cons_of_mem _ List.mem_cons_self
  obtain ⟨_, each, leaves⟩ := Token.found_by_value label
  exact ⟨scanned, known, each scanned known, ⟨s, parsed⟩, node, leaves parsed node⟩

end Clearance
