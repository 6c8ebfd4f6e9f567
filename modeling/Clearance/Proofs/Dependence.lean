import Clearance.Proofs.Bodies
import Clearance.Proofs.Limits
import Clearance.Proofs.Preserving
import Clearance.Proofs.Visits

/-! What a decision can hang on. Before a set that is held, the decision of a label is a check of
its words and then the value of its tree, whatever the policy answers, so it hangs on the values
that the label mentions and on no others. -/
namespace Clearance

variable {σ τ : Type} {policy : Policy σ} {lookup : Lookup σ} {held other : String → Bool}

namespace Grammar

mutual

/-- With a lookup that tests the values of words and keeps no state, a decision puts the words to
the policy and comes to the value of the tree. -/
theorem Expression.replay_testing : ∀ (x : Expression) (live : Bool) (offset : Nat),
    (∀ w ∈ x.words, lookup w.value w.body = pure (held w.value)) →
      x.replay (.deciding policy lookup) live offset =
        (fun _ => live && (x.tree offset).holds held) <$> audit policy x.words
  | .single t, live, offset, tests => t.replay_testing live offset tests
  | .group op first others, live, offset, tests => by
    obtain ⟨firstTests, othersTest⟩ := List.forall_mem_append.mp tests
    have begun := first.replay_testing live offset firstTests
    have ended := others.replay_testing op live (offset + first.text.length)
      ((first.tree offset).holds held) othersTest
    calc
      _ = (first.replay (.deciding policy lookup) live offset >>= fun b =>
            others.replay (.deciding policy lookup) live (offset + first.text.length) (op, b) >>=
              fun group => pure group.2) := rfl
      _ = (audit policy first.words >>= fun _ => audit policy others.words >>= fun _ =>
            pure (live && op.join ((first.tree offset).holds held) (op.value
              (Tree.allHold held (others.trees (offset + first.text.length)))))) := by
        simp only [begun, ended, bind_map_left]
      _ = _ := by
        rw [Expression.words, audit_append, Expression.tree, Tree.holds, Tree.allHold,
          op.value_cons, map_eq_pure_bind, bind_assoc]

theorem Term.replay_testing : ∀ (t : Term) (live : Bool) (offset : Nat),
    (∀ w ∈ t.words, lookup w.value w.body = pure (held w.value)) →
      t.replay (.deciding policy lookup) live offset =
        (fun _ => live && (t.tree offset).holds held) <$> audit policy t.words
  | .word w, live, offset, tests => by
    have tested := tests w List.mem_cons_self
    calc
      _ = (policy.accept (w.token offset) >>= fun value =>
            if live then liftM (lookup value w.body) else pure false) := rfl
      _ = (w.audit policy >>= fun _ =>
            if live then liftM (lookup w.value w.body) else pure false) := by
        rw [w.accept_token policy offset, bind_map_left]
      _ = _ := by
        rw [tested, Term.words, audit_singleton, map_eq_pure_bind]
        cases live <;> rfl
  | .enclosed x, live, offset, tests => x.replay_testing live (offset + 1) tests

/-- The group has come to the value of its members so far, as in `Members.replay_deciding`. -/
theorem Members.replay_testing (op : Connective) : ∀ (ms : Members) (live : Bool) (offset : Nat)
    (sofar : Bool), (∀ w ∈ ms.words, lookup w.value w.body = pure (held w.value)) →
      ms.replay (.deciding policy lookup) live offset (op, live && sofar) =
        (fun _ => (op, live && op.join sofar (op.value (Tree.allHold held (ms.trees offset))))) <$>
          audit policy ms.words
  | .last t, live, offset, sofar, tests => by
    have member := t.replay_testing (live && op.undecided (live && sofar)) (offset + 1) tests
    rw [Members.replay_last rfl, Members.trees, Tree.allHold, Tree.allHold, op.value_singleton,
      ← op.join_passed_over, Members.words, map_eq_pure_bind]
    show t.replay (.deciding policy lookup) (live && op.undecided (live && sofar)) (offset + 1) >>=
      (fun b => pure (op, op.join (live && sofar) b)) = _
    rw [member, bind_map_left]
  | .more t others, live, offset, sofar, tests => by
    obtain ⟨hereTests, othersTest⟩ := List.forall_mem_append.mp tests
    have member := t.replay_testing (live && op.undecided (live && sofar)) (offset + 1) hereTests
    have later := others.replay_testing op live (offset + 1 + t.text.length)
      (op.join sofar ((t.tree (offset + 1)).holds held)) othersTest
    rw [← op.join_passed_over] at later
    rw [Members.replay_more, Members.replay_last rfl, bind_assoc, Members.trees, Tree.allHold,
      op.value_cons, ← op.join_assoc, Members.words, audit_append, map_bind]
    show t.replay (.deciding policy lookup) (live && op.undecided (live && sofar)) (offset + 1) >>=
      (fun b => others.replay (.deciding policy lookup) live (offset + 1 + t.text.length)
        (op, op.join (live && sofar) b)) = _
    rw [member, bind_map_left, later]

end

end Grammar

namespace Tree

mutual

/-- The value of a tree is a matter of the values of its leaves. -/
theorem holds_congr : ∀ {t : Tree}, (∀ v ∈ t.values, held v = other v) →
    t.holds held = t.holds other
  | .empty, _ => rfl
  | .leaf _ _ value, agree => agree value List.mem_cons_self
  | .group op _ members, agree => by
    rw [holds, holds, allHold_congr agree]

theorem allHold_congr : ∀ {ts : List Tree}, (∀ v ∈ memberValues ts, held v = other v) →
    allHold held ts = allHold other ts
  | [], _ => rfl
  | t :: ts, agree => by
    obtain ⟨here, later⟩ := List.forall_mem_append.mp agree
    rw [allHold, allHold, holds_congr here, allHold_congr later]

end

end Tree

/-- A term whose atoms all have one value has that value. -/
theorem Binary.value_const (b : Bool) : ∀ a : Binary, a.value (fun _ => b) = b
  | .atom _ => rfl
  | .join op left right => by
    rw [value, left.value_const b, right.value_const b, op.join_self]

/-- Where all leaves of an expression have one value, so does the expression. -/
theorem Grammar.Expression.holds_of_const {b : Bool} (x : Expression) (offset : Nat)
    (same : ∀ v ∈ (x.tree offset).values, held v = b) : (x.tree offset).holds held = b := by
  rw [Tree.holds_congr same, x.holds_tree, Binary.value_const]

namespace Held

variable {v : String} {vs : List String}

theorem mem_foldl_insert {held : Held} :
    v ∈ (vs.foldl (fun held v => held.insert v) held).values ↔ v ∈ vs ∨ v ∈ held.values := by
  induction vs generalizing held with
  | nil => simp
  | cons w ws ih =>
    rw [List.foldl_cons, ih, mem_insert, List.mem_cons]
    tauto

theorem mem_ofList : v ∈ (ofList vs).values ↔ v ∈ vs :=
  mem_foldl_insert.trans (or_iff_left List.not_mem_nil)

theorem contains_ofList : (ofList vs).contains v = true ↔ v ∈ vs :=
  List.contains_iff_mem.trans mem_ofList

end Held

namespace Grammar

mutual

/-- The tokens of an expression stand for what its words do. -/
theorem Expression.tokens_value : ∀ (x : Expression) (offset : Nat),
    (x.tokens offset).map Token.value = x.words.map fun w => (w.token 0).value
  | .single t, offset => t.tokens_value offset
  | .group _ first others, offset => by
    rw [Expression.tokens, Expression.words, List.map_append, List.map_append, first.tokens_value,
      others.tokens_value]

theorem Term.tokens_value : ∀ (t : Term) (offset : Nat),
    (t.tokens offset).map Token.value = t.words.map fun w => (w.token 0).value
  | .word _, _ => rfl
  | .enclosed x, offset => x.tokens_value (offset + 1)

theorem Members.tokens_value : ∀ (ms : Members) (offset : Nat),
    (ms.tokens offset).map Token.value = ms.words.map fun w => (w.token 0).value
  | .last t, offset => t.tokens_value (offset + 1)
  | .more t others, offset => by
    rw [Members.tokens, Members.words, List.map_append, List.map_append, t.tokens_value,
      others.tokens_value]

end

/-- Where all words are text, tokens stand for the values of the leaves. -/
theorem Expression.tokens_value_tree {x : Expression}
    (values : ∀ w ∈ x.words, w.value? = some w.value) (offset : Nat) :
    (x.tokens offset).map Token.value = (x.tree offset).values.map .ok := by
  rw [x.tokens_value, x.values_tree, List.map_map]
  refine List.map_congr_left fun w member => ?_
  rw [w.value_token, values w member]
  rfl

end Grammar

theorem ok_injective : Function.Injective (Except.ok : String → Except Fault String) :=
  fun _ _ => Except.ok.inj

/-- A check that succeeds from one state succeeds from all. -/
theorem Rules.validate_settles {rules : Rules σ} {answer : String → Charset → Bool}
    (steady : rules.policy.Steady answer) {label : List UInt8} {s t : σ}
    (valid : (rules.validate label).on s = (.ok (), t)) : Run.Yields (rules.validate label) () := by
  intro r
  have same : (rules.validate label).fault? r = (rules.validate label).fault? s := by
    rw [fault?_validate steady, fault?_validate steady]
  obtain ⟨_, u, run⟩ := Run.fault?_eq_none.mp (same.trans (Run.fault?_eq_none.mpr ⟨_, t, valid⟩))
  exact ⟨u, run⟩

open Grammar

namespace Tree.IsOf

variable {label : List UInt8} {tree : Tree} {rules : Rules σ}

/-- The values of a tree are what the tokens of its label stand for. -/
theorem delivered_values (isOf : tree.IsOf label) {limit : UInt32}
    (within : nesting label ≤ limit.toNat) :
    (delivered limit label).map Token.value = tree.values.map .ok := by
  rcases isOf with ⟨rfl, rfl⟩ | ⟨x, rfl, rfl, values⟩
  · rfl
  · rw [nesting_text] at within
    rw [Expression.delivered_text within, Expression.tokens_value_tree values]

/-- A gate with one set checks a label, and then opens if the tree of the label holds. -/
theorem gate_decide_eq (isOf : tree.IsOf label) (within : nesting label ≤ rules.limit.toNat)
    (held : Held) : (rules.gate held).decide label =
      (fun _ => tree.holds held.contains) <$> rules.validate label := by
  rw [Gate.decide, Rules.decide_gate]
  rcases isOf with ⟨rfl, rfl⟩ | ⟨x, rfl, rfl, values⟩
  · rfl
  · rw [nesting_text] at within
    rw [rules.validate_text within]
    refine (read_text x within _).trans (x.replay_testing true 0 fun w member => ?_)
    rw [Lookup.inSet, w.body_eq (values w member), held.contains_bodies]

theorem holds_of_const (isOf : tree.IsOf label) (nonempty : label ≠ []) {b : Bool}
    (same : ∀ v ∈ tree.values, held v = b) : tree.holds held = b := by
  rcases isOf with ⟨empty, _⟩ | ⟨x, _, rfl, _⟩
  · exact absurd empty nonempty
  · exact x.holds_of_const 0 same

theorem eq_empty (isOf : tree.IsOf label) (empty : label = []) : tree = .empty := by
  rcases isOf with ⟨_, same⟩ | ⟨x, text, _, _⟩
  · exact same
  · exact absurd (text.trans empty) x.text_ne_nil

theorem values_eq_nil_iff (isOf : tree.IsOf label) : tree.values = [] ↔ label = [] := by
  constructor
  · intro none
    by_contra nonempty
    -- A tree without leaves would have both values.
    have both : ∀ b, tree.holds (fun _ => true) = b := fun b =>
      isOf.holds_of_const nonempty (by rw [none]; exact nofun)
    cases (both true).symm.trans (both false)
  · intro empty
    rw [isOf.eq_empty empty]
    rfl

end Tree.IsOf

namespace Label

/-- What a label mentions is all that its decisions by its own rules can hang on, whatever the
policy answers. -/
structure HangsOn (x : Label σ) (mentioned : Held) : Prop where
  mem_iff {v : String} :
    v ∈ mentioned.values ↔ ∃ t ∈ delivered x.rules.limit x.bytes, t.value = .ok v
  mentions {s t : σ} {found : Held} (ok : x.mentions.on s = (.ok found, t)) : found = mentioned
  /-- Sets that have the same of it are the same to the label, in every state. -/
  alike {held other : Held}
    (agree : ∀ v ∈ mentioned.values, held.contains v = other.contains v) :
    (x.rules.gate held).decideLabel x = (x.rules.gate other).decideLabel x
  without {s t : σ} {opens : Bool}
    (ok : ((x.rules.gate .empty).decideLabel x).on s = (.ok opens, t)) :
    opens = decide (x.text = "")
  throughout {s t : σ} {opens : Bool}
    (ok : ((x.rules.gate mentioned).decideLabel x).on s = (.ok opens, t)) : opens = true
  empty_iff : mentioned = .empty ↔ x.text = ""
  /-- Only a policy that changes its mind leaves any of this without an answer. -/
  steady {answer : String → Charset → Bool} (steady : x.rules.policy.Steady answer) :
    Run.Yields x.mentions mentioned ∧
      ∀ held, ∃ opens, Run.Yields ((x.rules.gate held).decideLabel x) opens

variable {x : Label σ}

/-- By its own rules a label is decided alike from its text and from its tree. -/
theorem Made.decideLabel_eq (made : x.Made) (held : Held) :
    (x.rules.gate held).decideLabel x = (x.rules.gate held).decide x.bytes :=
  Gate.decideLabel_eq_decide _ made made.nesting_le

/-- What is found in a label are the values of its tree, be it from the tree or from the text. -/
theorem Made.mentions_ok (made : x.Made) {tree : Tree} (isOf : tree.IsOf x.bytes) {s t : σ}
    {found : Held} (ok : x.mentions.on s = (.ok found, t)) : found = .ofList tree.values := by
  cases present : x.kept? with
  | some kept =>
    rw [mentions, present] at ok
    cases ok
    rw [(made.keeps kept present).unique isOf]
  | none =>
    rcases run : (x.rules.visit x.bytes Held.insert).on (s, Held.empty) with ⟨_ | _, r, gathered⟩
    · cases (mentions_of_fresh present run).symm.trans ok
    · cases (mentions_of_fresh present run).symm.trans ok
      obtain ⟨shown, values, gathered⟩ := Rules.visit_ok run
      rw [isOf.delivered_values made.nesting_le] at values
      rw [List.map_injective_iff.mpr ok_injective values]
      exact gathered

/-- The decision of a label by its own rules checks it and comes to the value of its tree. -/
theorem Made.decideLabel_tree (made : x.Made) {tree : Tree} (isOf : tree.IsOf x.bytes)
    (held : Held) : (x.rules.gate held).decideLabel x =
      (fun _ => tree.holds held.contains) <$> x.rules.validate x.bytes := by
  rw [made.decideLabel_eq, isOf.gate_decide_eq made.nesting_le]

theorem Made.decideLabel_ok (made : x.Made) {tree : Tree} (isOf : tree.IsOf x.bytes) {held : Held}
    {s t : σ} {opens : Bool} (ok : ((x.rules.gate held).decideLabel x).on s = (.ok opens, t)) :
    opens = tree.holds held.contains := by
  rw [made.decideLabel_tree isOf, Run.on_map] at ok
  rcases checked : (x.rules.validate x.bytes).on s with ⟨_ | _, r⟩
  · rw [checked] at ok
    cases ok
  · rw [checked] at ok
    cases ok
    rfl

theorem Made.exists_isOf (made : x.Made) : ∃ tree : Tree, tree.IsOf x.bytes := by
  obtain ⟨_, _, valid⟩ := made.passed
  rcases Rules.validate_ok valid with empty | ⟨e, text, _, passed⟩
  · exact ⟨.empty, Or.inl ⟨empty, rfl⟩⟩
  · exact ⟨e.tree 0, Or.inr ⟨e, text, rfl, value?_of_audit passed⟩⟩

theorem bytes_eq_nil_iff : x.bytes = [] ↔ x.text = "" :=
  ⟨fun empty => Text.Utf8.bytes_injective (t := "") empty, fun empty => by rw [bytes, empty]; rfl⟩

/-- For every label there is the set of what it mentions. Sets that hold the same of it are the same
to the label. A label that is not empty does not open to who holds nothing, and opens to who holds
all that it mentions; the empty label mentions nothing and opens to everyone. -/
theorem Made.hangs_on_mentions (made : x.Made) : ∃ mentioned : Held, x.HangsOn mentioned := by
  obtain ⟨tree, isOf⟩ := made.exists_isOf
  refine ⟨.ofList tree.values, ?_⟩
  constructor
  case mem_iff =>
    intro v
    have delivers := isOf.delivered_values made.nesting_le
    rw [Held.mem_ofList, ← List.mem_map_of_injective ok_injective, ← delivers, List.mem_map]
  case mentions => exact made.mentions_ok isOf
  case alike =>
    intro held other agree
    rw [made.decideLabel_tree isOf, made.decideLabel_tree isOf]
    rw [Tree.holds_congr fun v member => agree v (Held.mem_ofList.mpr member)]
  case without =>
    intro s t opens ok
    rw [made.decideLabel_ok isOf ok, ← decide_eq_decide.mpr bytes_eq_nil_iff]
    by_cases empty : x.bytes = []
    · rw [decide_eq_true empty, isOf.eq_empty empty]
      rfl
    · rw [decide_eq_false empty]
      exact isOf.holds_of_const empty fun _ _ => rfl
  case throughout =>
    intro s t opens ok
    rw [made.decideLabel_ok isOf ok]
    by_cases empty : x.bytes = []
    · rw [isOf.eq_empty empty]
      rfl
    · exact isOf.holds_of_const empty fun _ => Held.contains_ofList.mpr
  case empty_iff =>
    rw [← bytes_eq_nil_iff, ← isOf.values_eq_nil_iff]
    constructor
    · intro none
      refine List.eq_nil_iff_forall_not_mem.mpr fun v member => ?_
      rw [← Held.mem_ofList, none] at member
      cases member
    · intro none
      rw [none]
      rfl
  case steady =>
    intro answer steady
    obtain ⟨tree', computes, stands⟩ := made.stands steady
    obtain ⟨s, _, valid⟩ := made.passed
    obtain ⟨_, parsed⟩ := computes.parse s
    obtain rfl := (Rules.isOf_of_parse parsed).unique isOf
    refine ⟨stands.mentions computes, fun held => ⟨tree'.holds held.contains, ?_⟩⟩
    rw [made.decideLabel_tree isOf, map_eq_pure_bind]
    exact (Rules.validate_settles steady valid).bind (Run.yields_pure _)

/-- The label `A|(B&"A")`, before its tree has been asked for and after. To who holds `A` and `C` it
is as to who holds `A`. -/
theorem Made.hangs_on_mentions_respelled :
    let rules : Rules Nat := { policy? := some fun value _ n => (value != "D", n + 1) }
    let mentioned := Held.ofList ["A", "B"]
    ∃ fresh kept : Label Nat, fresh.Made ∧ fresh.text = "A|(B&\"A\")" ∧ fresh.kept? = none ∧
      kept.Made ∧ kept.text = "A|(B&\"A\")" ∧ kept.kept?.isSome = true ∧
      fresh.HangsOn mentioned ∧ kept.HangsOn mentioned ∧
      (rules.gate (.ofList ["A", "C"])).decideLabel fresh =
        (rules.gate (.ofList ["A"])).decideLabel fresh := by
  intro rules mentioned
  let a : Word := .spell "A" (by decide)
  let b : Word := .spell "B" (by decide)
  let quoted : Word := .quoted [0x41] (by decide) (.plain (by decide) .nil)
  let e : Expression := .group .or (.word a)
    (.last (.enclosed (.group .and (.word b) (.last (.word quoted)))))
  have value : quoted.value? = some "A" := Text.Utf8.decode?_eq_some.mpr (by decide)
  have steady : rules.policy.Steady (fun value _ => value != "D") := fun _ _ _ => rfl
  have allowed : ∀ w ∈ e.words, w.Allowed (fun value _ => value != "D") := by
    show ∀ w ∈ [a, b, quoted], _
    rw [List.forall_mem_cons, List.forall_mem_cons, List.forall_mem_singleton]
    exact ⟨Word.allowed_spell _ rfl, Word.allowed_spell _ rfl, Word.allowed_of_value value rfl⟩
  have values : Held.ofList (e.tree 0).values = mentioned := by
    rw [e.values_tree]
    show Held.ofList [a.value, b.value, quoted.value] = mentioned
    rw [Word.value_spell, Word.value_spell, Word.value, value]
    decide
  have spells : Text.Utf8.bytes "A|(B&\"A\")" = e.text := by decide
  obtain ⟨fresh, kept⟩ := Label.made_of_allowed steady spells (by decide) allowed 0 0
  have hangs : ∀ {x : Label Nat}, x.Made → x.text = "A|(B&\"A\")" → x.rules = rules →
      x.HangsOn mentioned := by
    intro x made text same
    obtain ⟨found, hangs⟩ := made.hangs_on_mentions
    have isOf : (e.tree 0).IsOf x.bytes := by
      refine Or.inr ⟨e, ?_, rfl, fun w member => (allowed w member).text⟩
      rw [Label.bytes, text, spells]
    rw [← same] at steady
    obtain ⟨_, found_eq⟩ := (hangs.steady steady).1 0
    rwa [made.mentions_ok isOf found_eq, values] at hangs
  have freshly := hangs fresh rfl rfl
  exact ⟨_, _, fresh, rfl, rfl, kept, rfl, rfl, freshly, hangs kept rfl rfl,
    freshly.alike (by decide)⟩

end Label

end Clearance
