import Clearance.Proofs.Mentions
import Clearance.Proofs.Verdict
import Mathlib.Data.List.Forall2

/-! What a visitor is shown: the values of the tokens of a label, one after the other, up to the
first that the policy refuses or to where the label breaks off. Nothing behind that place has been
shown by then. If all goes well these are the values of the leaves of the tree. -/
namespace Clearance

variable {σ τ α : Type} {policy : Policy σ} {answer : String → Charset → Bool}

/-- What a visitor makes of values that it is shown one after the other. -/
def collectAll (collect : String → τ → τ) (shown : List String) (x : τ) : τ :=
  shown.foldl (fun x v => collect v x) x

/-- Shows a visitor the value of a token that the policy accepts. -/
def Policy.present (policy : Policy σ) (collect : String → τ → τ) (t : Token) : Run (σ × τ) Unit :=
  (Interpretation.visiting policy collect).leaf t true

namespace Grammar

mutual

/-- A visit to an expression presents its tokens, in their order. -/
theorem Expression.replay_visits (policy : Policy σ) (collect : String → τ → τ) :
    ∀ (x : Expression) (live : Bool) (offset : Nat),
      x.replay (.visiting policy collect) live offset =
        forM (x.tokens offset) (policy.present collect)
  | .single t, live, offset => t.replay_visits policy collect live offset
  | .group op first others, live, offset => by
    rw [Expression.tokens, List.forM_append, ← first.replay_visits policy collect live offset,
      ← others.replay_visits policy collect live (offset + first.text.length)]
    apply bind_congr
    intro _
    exact bind_pure (others.replay (.visiting policy collect) live (offset + first.text.length) ())

theorem Term.replay_visits (policy : Policy σ) (collect : String → τ → τ) :
    ∀ (t : Term) (live : Bool) (offset : Nat),
      t.replay (.visiting policy collect) live offset =
        forM (t.tokens offset) (policy.present collect)
  | .word w, _, offset => (bind_pure (policy.present collect (w.token offset))).symm
  | .enclosed x, live, offset => x.replay_visits policy collect live (offset + 1)

theorem Members.replay_visits (policy : Policy σ) (collect : String → τ → τ) :
    ∀ (ms : Members) (live : Bool) (offset : Nat),
      ms.replay (.visiting policy collect) live offset () =
        forM (ms.tokens offset) (policy.present collect)
  | .last t, live, offset => by
    rw [Members.replay_last rfl, Members.tokens,
      ← t.replay_visits policy collect (live && true) (offset + 1)]
    exact bind_pure (t.replay (.visiting policy collect) (live && true) (offset + 1))
  | .more t others, live, offset => by
    rw [Members.replay_more, Members.replay_last rfl, Members.tokens, List.forM_append,
      ← t.replay_visits policy collect (live && true) (offset + 1),
      ← others.replay_visits policy collect live (offset + 1 + t.text.length), bind_assoc]
    rfl

end

mutual

/-- A visit to an expression that breaks off presents the tokens before the break. -/
theorem BrokenExpression.replay_visits (policy : Policy σ) (collect : String → τ → τ) :
    ∀ (x : BrokenExpression) (live : Bool) (offset : Nat),
      (x.replay (.visiting policy collect) live offset : Run (σ × τ) α) = do
        forM (x.tokens offset) (policy.present collect)
        throw x.fault
  | .first t, live, offset => t.replay_visits policy collect live offset
  | .group op first others, live, offset => by
    rw [BrokenExpression.tokens, List.forM_append, bind_assoc,
      ← first.replay_visits policy collect live offset]
    apply bind_congr
    intro _
    exact others.replay_visits policy collect live (offset + first.text.length)

theorem BrokenTerm.replay_visits (policy : Policy σ) (collect : String → τ → τ) :
    ∀ (t : BrokenTerm) (live : Bool) (offset : Nat),
      (t.replay (.visiting policy collect) live offset : Run (σ × τ) α) = do
        forM (t.tokens offset) (policy.present collect)
        throw t.fault
  | .absent _, _, _ => rfl
  | .within x, live, offset => x.replay_visits policy collect live (offset + 1)
  | .unclosed x _, live, offset => by
    rw [BrokenTerm.replay, x.replay_visits policy collect]
    rfl

theorem BrokenMembers.replay_visits (policy : Policy σ) (collect : String → τ → τ) :
    ∀ (ms : BrokenMembers) (live : Bool) (offset : Nat),
      (ms.replay (.visiting policy collect) live offset () : Run (σ × τ) α) = do
        forM (ms.tokens offset) (policy.present collect)
        throw ms.fault
  | .here t, live, offset => by
    rw [BrokenMembers.replay, Interpretation.memberLive_of_pure rfl]
    exact t.replay_visits policy collect (live && true) (offset + 1)
  | .mixed t _, live, offset => by
    rw [BrokenMembers.replay, (Members.last t).replay_visits policy collect]
    rfl
  | .later t others, live, offset => by
    rw [BrokenMembers.replay, BrokenMembers.tokens, List.forM_append, bind_assoc,
      (Members.last t).replay_visits policy collect]
    apply bind_congr
    intro _
    exact others.replay_visits policy collect live (offset + 1 + t.text.length)

end

end Grammar

/-- Stops with a fault, if there is one. -/
def Run.stop : Option Fault → Run σ Unit
  | none => pure ()
  | some fault => throw fault

theorem Grammar.Outline.replay_visits (policy : Policy σ) (collect : String → τ → τ)
    (outline : Outline) : outline.replay (.visiting policy collect) =
      forM outline.tokens (policy.present collect) >>= fun _ => Run.stop outline.fault? := by
  cases outline with
  | empty => rfl
  | whole x => exact (x.replay_visits policy collect true 0).trans (bind_pure _).symm
  | leftOver x fault =>
    rw [replay, x.replay_visits policy collect]
    rfl
  | broken b => exact b.replay_visits policy collect true 0

open Grammar

/-- A visit presents the tokens that the reading delivers, and then stops with what is wrong with
the label. -/
theorem Rules.visit_eq (rules : Rules σ) (label : List UInt8) (collect : String → τ → τ) :
    rules.visit label collect =
      forM (delivered rules.limit label) (rules.policy.present collect) >>= fun _ =>
        Run.stop (malformation? rules.limit label) := by
  obtain ⟨outline, _, replays⟩ := exists_outline rules.limit label
  obtain ⟨tokens, fault⟩ := Outline.delivered_eq (replays .collecting)
  rw [tokens, fault, Rules.visit, replays]
  exact outline.replay_visits rules.policy collect

namespace Token

/-- A token that stands for `v`, which a policy with these answers allows. -/
structure Passes (answer : String → Charset → Bool) (t : Token) (v : String) : Prop where
  value_eq : t.value = .ok v
  allowed : answer v t.charset = true

/-- What a token is refused with, by a policy with these answers. -/
inductive RefusedWith (answer : String → Charset → Bool) (t : Token) : Fault → Prop where
  | notText {fault : Fault} (known : t.value = .error fault) : RefusedWith answer t fault
  | notAllowed {v : String} (known : t.value = .ok v) (refused : answer v t.charset = false) :
      RefusedWith answer t (.refused v)

end Token

/-- What presenting a token can come to, whatever the policy: its value is shown, or it is no text,
or its value is refused. -/
theorem Policy.present_cases (policy : Policy σ) (collect : String → τ → τ) (t : Token) (s : σ)
    (x : τ) :
    (∃ v s', t.value = .ok v ∧ (policy v t.charset s).1 = true ∧
      (policy.present collect t).on (s, x) = (.ok (), (s', collect v x))) ∨
    (∃ fault, t.value = .error fault ∧
      (policy.present collect t).on (s, x) = (.error fault, (s, x))) ∨
    ∃ v s', t.value = .ok v ∧ (policy v t.charset s).1 = false ∧
      (policy.present collect t).on (s, x) = (.error (.refused v), (s', x)) := by
  cases known : t.value with
  | error fault =>
    refine Or.inr (Or.inl ⟨fault, rfl, ?_⟩)
    simp only [present, Interpretation.visiting, accept, known]
    rfl
  | ok v =>
    have asked : policy.present collect t = policy.beside.check v t.charset >>= fun value =>
        modify fun y => (y.1, collect value y.2) := by
      simp only [present, Interpretation.visiting, accept, known]
      rfl
    have answered : policy.beside v t.charset (s, x) =
        ((policy v t.charset s).1, ((policy v t.charset s).2, x)) := rfl
    rw [asked, check, bind_assoc, Run.on_bind, Run.on_lift, answered]
    cases allowed : (policy v t.charset s).1 with
    | true => exact Or.inl ⟨v, _, rfl, allowed, rfl⟩
    | false => exact Or.inr (Or.inr ⟨v, _, rfl, allowed, rfl⟩)

/-- Tokens that have all been presented, whatever the policy, have shown their values. -/
theorem Policy.present_ok {collect : String → τ → τ} : ∀ {ts : List Token} {s : σ} {x : τ}
    {u : σ × τ}, (forM ts (policy.present collect)).on (s, x) = (.ok (), u) →
      ∃ shown : List String, ts.map Token.value = shown.map .ok ∧
        u.2 = collectAll collect shown x
  | [], _, _, _, ok => by
    cases ok
    exact ⟨[], rfl, rfl⟩
  | t :: ts, s, x, u, ok => by
    rw [List.forM_cons] at ok
    obtain ⟨_, _, first, rest⟩ := Run.on_bind_eq_ok.mp ok
    rcases policy.present_cases collect t s x with
      ⟨v, s', known, _, run⟩ | ⟨_, _, run⟩ | ⟨_, _, _, _, run⟩ <;> cases first.symm.trans run
    obtain ⟨shown, values, gathered⟩ := present_ok rest
    exact ⟨v :: shown, by rw [List.map_cons, List.map_cons, known, values], gathered⟩

/-- Where tokens are not all presented, one of them is no text, or the policy has refused its value
in some state. -/
theorem Policy.present_error {collect : String → τ → τ} {fault : Fault} : ∀ {ts : List Token}
    {s : σ} {x : τ} {u : σ × τ}, (forM ts (policy.present collect)).on (s, x) = (.error fault, u) →
      ∃ t ∈ ts, t.value = .error fault ∨
        ∃ v r, t.value = .ok v ∧ (policy v t.charset r).1 = false ∧ fault = .refused v
  | [], _, _, _, failed => by cases failed
  | t :: ts, s, x, u, failed => by
    rw [List.forM_cons, Run.on_bind] at failed
    rcases policy.present_cases collect t s x with
      ⟨v, s', _, _, run⟩ | ⟨_, known, run⟩ | ⟨v, s', known, refused, run⟩ <;> rw [run] at failed
    · obtain ⟨later, member, why⟩ := present_error failed
      exact ⟨later, List.mem_cons_of_mem t member, why⟩
    · cases failed
      exact ⟨t, List.mem_cons_self, Or.inl known⟩
    · cases failed
      exact ⟨t, List.mem_cons_self, Or.inr ⟨v, s, known, refused, rfl⟩⟩

/-- What a visitor has been shown when a visit ends well, whatever the policy. -/
theorem Rules.visit_ok {rules : Rules σ} {label : List UInt8} {collect : String → τ → τ} {s : σ}
    {x : τ} {u : σ × τ} (ok : (rules.visit label collect).on (s, x) = (.ok (), u)) :
    ∃ shown : List String, (delivered rules.limit label).map Token.value = shown.map .ok ∧
      u.2 = collectAll collect shown x := by
  rw [visit_eq] at ok
  obtain ⟨_, _, presented, ends⟩ := Run.on_bind_eq_ok.mp ok
  cases stop : malformation? rules.limit label with
  | none =>
    rw [stop] at ends
    cases ends
    exact Policy.present_ok presented
  | some fault =>
    rw [stop] at ends
    cases ends

/-- A token is shown if it passes, and otherwise stops the visit. -/
theorem Policy.Steady.present_cases (steady : policy.Steady answer) (collect : String → τ → τ)
    (t : Token) (s : σ) (x : τ) :
    (∃ v s', t.Passes answer v ∧
      (policy.present collect t).on (s, x) = (.ok (), (s', collect v x))) ∨
    ∃ fault s', t.RefusedWith answer fault ∧
      (policy.present collect t).on (s, x) = (.error fault, (s', x)) := by
  rcases policy.present_cases collect t s x with
    ⟨v, s', known, allowed, run⟩ | ⟨fault, known, run⟩ | ⟨v, s', known, refused, run⟩
  · exact Or.inl ⟨v, s', ⟨known, (steady v t.charset s).symm.trans allowed⟩, run⟩
  · exact Or.inr ⟨fault, s, .notText known, run⟩
  · exact Or.inr ⟨_, s', .notAllowed known ((steady v t.charset s).symm.trans refused), run⟩

/-- Tokens are shown one after the other, up to the first that is refused. -/
theorem Policy.Steady.present_all (steady : policy.Steady answer) (collect : String → τ → τ) :
    ∀ (ts : List Token) (s : σ) (x : τ),
      (∃ shown s', List.Forall₂ (Token.Passes answer) ts shown ∧
        (forM ts (policy.present collect)).on (s, x) =
          (.ok (), (s', collectAll collect shown x))) ∨
      ∃ seen token later fault shown s', ts = seen ++ token :: later ∧
        List.Forall₂ (Token.Passes answer) seen shown ∧ token.RefusedWith answer fault ∧
        (forM ts (policy.present collect)).on (s, x) =
          (.error fault, (s', collectAll collect shown x))
  | [], s, x => Or.inl ⟨[], s, .nil, rfl⟩
  | t :: ts, s, x => by
    rw [List.forM_cons, Run.on_bind]
    rcases steady.present_cases collect t s x with
      ⟨v, r, passes, first⟩ | ⟨fault, r, refused, first⟩
    · rw [first]
      rcases steady.present_all collect ts r (collect v x) with
        ⟨shown, s', all, rest⟩ | ⟨seen, token, later, fault, shown, s', split, all, refused, rest⟩
      · exact Or.inl ⟨v :: shown, s', .cons passes all, rest⟩
      · exact Or.inr ⟨t :: seen, token, later, fault, v :: shown, s', by rw [split]; rfl,
          .cons passes all, refused, rest⟩
    · rw [first]
      exact Or.inr ⟨[], t, ts, fault, [], r, rfl, .nil, refused, rfl⟩

namespace Tree

/-- The value of a leaf. -/
def leafValue? : Tree → Option String
  | .leaf _ _ value => some value
  | _ => none

mutual

/-- The values of a tree are those of its leaves, where each tree comes before its members. -/
theorem values_eq_nodes : ∀ (t : Tree) (depth : Nat),
    t.values = (t.nodes depth).filterMap fun node => node.2.leafValue?
  | .empty, _ => rfl
  | .leaf .., _ => rfl
  | .group _ _ members, depth => memberValues_eq_nodes members (depth + 1)

theorem memberValues_eq_nodes : ∀ (ts : List Tree) (depth : Nat),
    memberValues ts = (memberNodes depth ts).filterMap fun node => node.2.leafValue?
  | [], _ => rfl
  | t :: ts, depth => by
    rw [memberValues, memberNodes, List.filterMap_append, values_eq_nodes t depth,
      memberValues_eq_nodes ts depth]

end

end Tree

/-- What a visitor has been shown when a visit fails: the values of the tokens up to some place,
each of which passes. There a token is refused, or the label breaks off. -/
inductive Rules.ShowsBefore (rules : Rules σ) (answer : String → Charset → Bool)
    (label : List UInt8) : Fault → List String → Prop where
  | refused {seen later : List Token} {token : Token} {fault : Fault} {shown : List String}
      (delivers : delivered rules.limit label = seen ++ token :: later)
      (passes : List.Forall₂ (Token.Passes answer) seen shown)
      (refused : token.RefusedWith answer fault)
      (before : ∀ t ∈ seen, t.span.stop ≤ token.span.start) :
      ShowsBefore rules answer label fault shown
  | malformed {fault : Fault} {shown : List String} {p : Nat}
      (passes : List.Forall₂ (Token.Passes answer) (delivered rules.limit label) shown)
      (malformed : malformation? rules.limit label = some fault) (place : fault.offset? = some p)
      (before : ∀ t ∈ delivered rules.limit label, t.span.stop ≤ p) :
      ShowsBefore rules answer label fault shown

namespace Rules

variable {rules : Rules σ} {label : List UInt8} {s s' : σ}

/-- A visit to a label that has a tree shows the values of its leaves. -/
theorem visit_of_parse (steady : rules.policy.Steady answer) {tree : Tree}
    (parsed : (rules.parse label).on s = (.ok tree, s')) (collect : String → τ → τ) :
    Run.Gathers (rules.visit label collect) (collectAll collect tree.values) := by
  rcases rules.parse_ok parsed with ⟨rfl, rfl⟩ | ⟨e, rfl, within, rfl, passed⟩
  · exact Run.gathers_pure
  · have same : collectAll collect (e.tree 0).values = gather collect e.words := by
      funext x
      rw [e.values_tree, collectAll, List.foldl_map]
      rfl
    rw [same, visit, read_text e within]
    exact e.replay_visiting steady true 0 (allowed_of_audit steady passed)

/-- A visit that fails has shown what stands before the fault, and nothing behind it. -/
theorem visit_of_fault (steady : rules.policy.Steady answer) (collect : String → τ → τ) {x : τ}
    {fault : Fault} (failed : (rules.visit label collect).fault? (s, x) = some fault) :
    ∃ shown s', rules.ShowsBefore answer label fault shown ∧
      (rules.visit label collect).on (s, x) =
        (.error fault, (s', collectAll collect shown x)) := by
  rw [visit_eq, Run.fault?, Run.on_bind] at failed
  rw [visit_eq, Run.on_bind]
  rcases steady.present_all collect (delivered rules.limit label) s x with
    ⟨shown, s', all, run⟩ | ⟨seen, token, later, fault', shown, s', split, all, refused, run⟩
  · rw [run] at failed ⊢
    cases malformed : malformation? rules.limit label with
    | none =>
      rw [malformed] at failed
      cases failed
    | some fault' =>
      rw [malformed] at failed
      cases failed
      obtain ⟨p, place, before⟩ := delivered_before_malformation malformed
      exact ⟨shown, s', .malformed all malformed place before, rfl⟩
  · rw [run] at failed ⊢
    cases failed
    -- The tokens that have been shown stand before the one that is refused.
    have order := delivered_pairwise rules.limit label
    rw [split] at order
    have before := fun t member => (List.pairwise_append.mp order).2.2 t member token
      List.mem_cons_self
    exact ⟨shown, s', .refused split all refused before, rfl⟩

/-- A visit to a label shows the values of the leaves of its tree, in their order and as often as
they stand there. If the label has no tree the visit fails as the reading does that builds one, and
has shown the values of the tokens before the fault, each of which passes, and nothing else. -/
theorem visit_shows_leaves (steady : rules.policy.Steady answer) (label : List UInt8)
    (collect : String → τ → τ) (s r : σ) (x : τ) :
    (∀ tree s', (rules.parse label).on s = (.ok tree, s') →
      tree.values = (tree.nodes 0).filterMap (fun node => node.2.leafValue?) ∧
      ∃ r', (rules.visit label collect).on (r, x) =
        (.ok (), (r', collectAll collect tree.values x))) ∧
    ∀ fault s', (rules.parse label).on s = (.error fault, s') →
      ∃ shown r', rules.ShowsBefore answer label fault shown ∧
        (rules.visit label collect).on (r, x) =
          (.error fault, (r', collectAll collect shown x)) := by
  constructor
  · intro tree s' parsed
    exact ⟨tree.values_eq_nodes 0, visit_of_parse steady parsed collect r x⟩
  · intro fault s' failed
    have same : rules.verdict? answer label = some fault := by
      rw [← (endAlike steady label s).parse]
      exact Run.fault?_eq_some.mpr ⟨s', failed⟩
    exact visit_of_fault steady collect (((endAlike steady label r).visit collect x).trans same)

/-- By rules that refuse `C`, a visitor to `B|(A&B)` is shown `B` twice, and the visit to `A&C&B`
fails behind `A`. -/
theorem visit_shows_leaves_twice :
    let answer : String → Charset → Bool := fun value _ => value != "C"
    let rules : Rules Nat :=
      { policy? := some fun value charset n => (answer value charset, n + 1) }
    let collect : String → List String → List String := fun v shown => shown ++ [v]
    rules.policy.Steady answer ∧
      (∃ tree s', (rules.parse (Text.Utf8.bytes "B|(A&B)")).on 0 = (.ok tree, s') ∧
        tree.values = (tree.nodes 0).filterMap (fun node => node.2.leafValue?) ∧
        ∃ r', (rules.visit (Text.Utf8.bytes "B|(A&B)") collect).on (0, []) =
          (.ok (), (r', ["B", "A", "B"]))) ∧
      ∃ fault s', (rules.parse (Text.Utf8.bytes "A&C&B")).on 0 = (.error fault, s') ∧
        ∃ shown r', rules.ShowsBefore answer (Text.Utf8.bytes "A&C&B") fault shown ∧
          (rules.visit (Text.Utf8.bytes "A&C&B") collect).on (0, []) =
            (.error fault, (r', collectAll collect shown [])) := by
  intro answer rules collect
  have steady : rules.policy.Steady answer := fun _ _ _ => rfl
  let a : Word := .spell "A" (by decide)
  let b : Word := .spell "B" (by decide)
  let c : Word := .spell "C" (by decide)
  refine ⟨steady, ?_, ?_⟩
  · let e : Expression := .group .or (.word b)
      (.last (.enclosed (.group .and (.word a) (.last (.word b)))))
    have text : Text.Utf8.bytes "B|(A&B)" = e.text := by decide
    have allowed : ∀ w ∈ e.words, w.Allowed answer := by
      show ∀ w ∈ [b, a, b], _
      rw [List.forall_mem_cons, List.forall_mem_cons, List.forall_mem_singleton]
      exact ⟨Word.allowed_spell _ rfl, Word.allowed_spell _ rfl, Word.allowed_spell _ rfl⟩
    have values : (e.tree 0).values = ["B", "A", "B"] := by
      rw [e.values_tree]
      show [b.value, a.value, b.value] = _
      rw [Word.value_spell, Word.value_spell]
    obtain ⟨s', parsed⟩ := rules.parse_yields steady (by decide) allowed 0
    rw [← text] at parsed
    obtain ⟨leaves, r', visited⟩ :=
      (visit_shows_leaves steady _ collect 0 0 []).1 _ s' parsed
    rw [values] at visited
    exact ⟨_, s', parsed, leaves, r', visited⟩
  · let e : Expression := .group .and (.word a) (.more (.word c) (.last (.word b)))
    have text : Text.Utf8.bytes "A&C&B" = e.text := by decide
    have failed : (rules.parse e.text).on 0 = (.error (.refused "C"), 2) := by
      rw [rules.parse_text (by decide)]
      show Run.on (_ <$> audit rules.policy [a, c, b]) 0 = _
      simp only [audit, Word.audit, Word.accept_of_value (Word.value?_spell _ _), a, c, b]
      rfl
    rw [← text] at failed
    exact ⟨_, 2, failed, (visit_shows_leaves steady _ collect 0 0 []).2 _ 2 failed⟩

end Rules

end Clearance
