import Clearance.Proofs.Delivery
import Clearance.Proofs.Parts
import Clearance.Proofs.Steady

/-! What a tree says of the text that it was read from. A leaf is one token with its quotes. A
group is its members with the connective between them, some of them in parentheses, and the whole
text is the tree in parentheses, if any. Spans say where all this stands. -/
namespace Clearance

open Grammar Text.Utf8

namespace Tree

/-- The bytes from `start` on are those of a tree in `n` pairs of parentheses. -/
structure Fills (t : Tree) (label : List UInt8) (n start : Nat) (stretch : List UInt8) : Prop where
  bytes_eq : stretch = enclose n (bytes (t.text label))
  span_eq : t.span = ⟨start + n, start + n + (bytes (t.text label)).length⟩

/-- The bytes from `start` on are those of the members of a group, with the connective between
them. A member that is a group itself is in parentheses. -/
inductive Joined (label : List UInt8) (op : Connective) : Nat → List Tree → List UInt8 → Prop where
  | last {t : Tree} {n start : Nat} {stretch : List UInt8} (fills : t.Fills label n start stretch)
      (enclosed : t.connective?.isSome = true → 1 ≤ n) : Joined label op start [t] stretch
  | more {t : Tree} {ts : List Tree} {n start : Nat} {stretch rest : List UInt8}
      (fills : t.Fills label n start stretch) (enclosed : t.connective?.isSome = true → 1 ≤ n)
      (others : Joined label op (start + stretch.length + 1) ts rest) :
      Joined label op start (t :: ts) (stretch ++ op.byte :: rest)

section

variable {label stretch : List UInt8} {op : Connective} {start n : Nat} {t : Tree} {ts : List Tree}

theorem Fills.within (fills : t.Fills label n start stretch) :
    start ≤ t.span.start ∧ t.span.stop ≤ start + stretch.length := by
  rw [fills.span_eq, fills.bytes_eq, enclose]
  simp only [List.length_append, List.length_replicate]
  omega

namespace Joined

theorem within (joined : Joined label op start ts stretch) :
    ∀ t ∈ ts, start ≤ t.span.start ∧ t.span.stop ≤ start + stretch.length := by
  induction joined with
  | last fills =>
    rw [List.forall_mem_singleton]
    exact fills.within
  | more fills _ _ ih =>
    rw [List.forall_mem_cons, List.length_append, List.length_cons]
    have first := fills.within
    refine ⟨by omega, fun t member => ?_⟩
    have later := ih t member
    omega

/-- Members stand one behind the other, with the connective between them. -/
theorem pairwise (joined : Joined label op start ts stretch) :
    ts.Pairwise fun a b => a.span.stop < b.span.start := by
  induction joined with
  | last => exact List.pairwise_singleton _ _
  | more fills _ others ih =>
    refine .cons (fun t member => ?_) ih
    have first := fills.within
    have later := others.within t member
    omega

/-- None of two or more members is all of the group. -/
theorem span_ne (joined : Joined label op start ts stretch) (several : 2 ≤ ts.length) :
    ∀ t ∈ ts, t.span ≠ ⟨start, start + stretch.length⟩ := by
  cases joined with
  | last => exact absurd several (Nat.not_succ_le_self 1)
  | more fills _ others =>
    rw [List.forall_mem_cons, List.length_append, List.length_cons]
    have first := fills.within
    refine ⟨fun same => ?_, fun t member same => ?_⟩
    · simp only [same] at first
      omega
    · have later := others.within t member
      simp only [same] at later
      omega

end Joined

end

/-- What a tree says of the text that it was read from, where parentheses may nest as deep as
`limit`. -/
structure FaithfulTo (tree : Tree) (limit : UInt32) (text : String) : Prop where
  whole : ∃ n, tree.Fills (bytes text) n 0 (bytes text)
  empty {depth : Nat} : (depth, .empty) ∈ tree.nodes 0 ↔ depth = 0 ∧ text = ""
  /-- A leaf is a token of the text, with its quotes. -/
  leaf {depth : Nat} {span : Span} {quoted : Bool} {value : String}
    (node : (depth, .leaf span quoted value) ∈ tree.nodes 0) :
    ∃ token ∈ delivered limit (bytes text), token.span = span ∧
      token.quoted = quoted ∧ token.value = .ok value ∧
      token.text = (if quoted then quoteByte :: (token.body ++ [quoteByte]) else token.body) ∧
      token.text = bytes ((Tree.leaf span quoted value).text (bytes text))
  group {depth : Nat} {op : Connective} {span : Span} {members : List Tree}
    (node : (depth, .group op span members) ∈ tree.nodes 0) : 2 ≤ members.length ∧
      Joined (bytes text) op span.start members
        (bytes ((Tree.group op span members).text (bytes text)))
  /-- Members stand apart and within their group, and none is all of it, though the first may begin
  and the last may end where the group does. -/
  siblings {depth : Nat} {op : Connective} {span : Span} {members : List Tree}
    (node : (depth, .group op span members) ∈ tree.nodes 0) :
    (members.Pairwise fun a b => a.span.stop < b.span.start) ∧
      ∀ t ∈ members, span.start ≤ t.span.start ∧ t.span.stop ≤ span.stop ∧ t.span ≠ span
  /-- A span begins and ends between characters of the text. -/
  characters {depth : Nat} {node : Tree} (member : (depth, node) ∈ tree.nodes 0) :
    ∃ front back : String, text = front ++ node.text (bytes text) ++ back ∧
      (bytes front).length = node.span.start ∧
      (bytes (front ++ node.text (bytes text))).length = node.span.stop
  /-- What a node was read from is text, and nothing only where nothing was read. -/
  text?_eq {depth : Nat} {node : Tree} (member : (depth, node) ∈ tree.nodes 0) :
    node.text? (bytes text) = some (node.text (bytes text)) ∧
      (node.text (bytes text) = "" → node = .empty)

end Tree

namespace Grammar

variable {label : List UInt8}

/-- An expression is its tree in the parentheses around all of it. -/
theorem Expression.fills (x : Expression) {offset : Nat} (stands : x.text <+: label.drop offset)
    (values : ∀ w ∈ x.words, w.value? = some w.value) :
    (x.tree offset).Fills label x.pairs offset x.text := by
  have isPart := x.isPart stands _ (x.core_mem_parts offset)
  have text := isPart.bytes_text values
  rw [← x.tree_core] at text
  constructor
  · rw [text, ← x.text_core]
  · rw [text, x.tree_core]
    exact isPart.opened.span_tree _

theorem Term.fills (t : Term) {offset : Nat} (stands : t.text <+: label.drop offset)
    (values : ∀ w ∈ t.words, w.value? = some w.value) :
    (t.tree offset).Fills label t.pairs offset t.text :=
  (Expression.single t).fills stands values

/-- A term whose tree is a group is in parentheses. -/
theorem Term.pairs_pos {t : Term} {offset : Nat}
    (group : (t.tree offset).connective?.isSome = true) : 1 ≤ t.pairs := by
  cases t with
  | word => cases group
  | enclosed => exact Nat.succ_pos _

theorem Members.joined (op : Connective) : ∀ (ms : Members) {offset : Nat},
    ms.text op <+: label.drop offset → (∀ w ∈ ms.words, w.value? = some w.value) →
      ∃ stretch, ms.text op = op.byte :: stretch ∧
        Tree.Joined label op (offset + 1) (ms.trees offset) stretch
  | .last t, offset, stands, values => by
    have split : [op.byte] ++ t.text <+: label.drop offset := stands
    exact ⟨t.text, rfl, .last (t.fills (prefix_drop_append split).2 values) t.pairs_pos⟩
  | .more t others, offset, stands, values => by
    have split : [op.byte] ++ (t.text ++ others.text op) <+: label.drop offset := stands
    obtain ⟨stands, othersStand⟩ := prefix_drop_append (prefix_drop_append split).2
    obtain ⟨values, othersValues⟩ := List.forall_mem_append.mp values
    obtain ⟨rest, text, joined⟩ := others.joined op othersStand othersValues
    refine ⟨t.text ++ op.byte :: rest, ?_, .more (t.fills stands values) t.pairs_pos joined⟩
    rw [Members.text, text]
    rfl

theorem Members.trees_ne_nil (ms : Members) (offset : Nat) : ms.trees offset ≠ [] := by
  cases ms <;> exact List.cons_ne_nil _ _

/-- A group is its members with the connective between them. -/
theorem Expression.joined {op : Connective} {first : Term} {others : Members} {offset : Nat}
    (stands : (Expression.group op first others).text <+: label.drop offset)
    (values : ∀ w ∈ (Expression.group op first others).words, w.value? = some w.value) :
    Tree.Joined label op offset
      (first.tree offset :: others.trees (offset + first.text.length))
      (Expression.group op first others).text := by
  obtain ⟨firstStands, othersStand⟩ := prefix_drop_append stands
  obtain ⟨firstValues, othersValues⟩ := List.forall_mem_append.mp values
  obtain ⟨rest, text, joined⟩ := others.joined op othersStand othersValues
  rw [Expression.text, text]
  exact .more (first.fills firstStands firstValues) first.pairs_pos joined

end Grammar

/-- Within the limit, the tokens that are delivered are those of the derivation. -/
theorem Grammar.Expression.delivered_text {x : Expression} {limit : UInt32}
    (within : x.depth ≤ limit.toNat) : delivered limit x.text = x.tokens 0 := by
  have replays : Interpretation.collecting.read limit x.text =
      (Outline.whole x).replay .collecting := read_text x within .collecting
  exact (Outline.delivered_eq replays).1

theorem Tree.faithfulTo_empty (limit : UInt32) : Tree.empty.FaithfulTo limit "" := by
  have only : ∀ {depth node}, (depth, node) ∈ Tree.empty.nodes 0 → depth = 0 ∧ node = .empty :=
    fun member => Prod.ext_iff.mp (List.mem_singleton.mp member)
  exact {
    whole := ⟨0, ⟨by rw [Tree.text_empty]; rfl, by rw [Tree.text_empty]; rfl⟩⟩
    empty := ⟨fun member => ⟨(only member).1, rfl⟩, by rintro ⟨rfl, _⟩; exact List.mem_cons_self⟩
    leaf := fun node => nomatch (only node).2
    group := fun node => nomatch (only node).2
    siblings := fun node => nomatch (only node).2
    characters := by
      intro depth node member
      obtain ⟨rfl, rfl⟩ := only member
      rw [Tree.text_empty]
      exact ⟨"", "", rfl, rfl, rfl⟩
    text?_eq := by
      intro depth node member
      obtain ⟨rfl, rfl⟩ := only member
      exact ⟨by rw [Tree.text_empty, Tree.text?_empty], fun _ => rfl⟩ }

namespace Grammar.Expression

variable {x : Expression} {limit : UInt32} {text : String}

section

variable {depth : Nat} (values : ∀ w ∈ x.words, w.value? = some w.value)

include values

/-- A leaf was read from a token of the text. -/
theorem exists_token {span : Span} {quoted : Bool} {value : String}
    (node : (depth, .leaf span quoted value) ∈ (x.tree 0).nodes 0) :
    ∃ token ∈ x.tokens 0, token.span = span ∧ token.quoted = quoted ∧ token.value = .ok value ∧
      token.text = (if quoted then quoteByte :: (token.body ++ [quoteByte]) else token.body) ∧
      token.text = bytes ((Tree.leaf span quoted value).text x.text) := by
  obtain ⟨start, w, isPart, rfl, rfl, rfl⟩ := exists_isPart_word node
  have known := values w (isPart.words_subset List.mem_cons_self)
  have text : bytes ((Tree.leaf (w.token start).span w.isQuoted w.value).text x.text) = w.text :=
    isPart.bytes_text values
  rw [text]
  refine ⟨w.token start, isPart.tokens_subset List.mem_cons_self, rfl, rfl, ?_, ?_, rfl⟩
  · rw [w.value_token, known]
  · cases w <;> rfl

variable {op : Connective} {span : Span} {members : List Tree}

/-- A group was read from its members, of which there are two or more. -/
theorem joined_of_node (node : (depth, .group op span members) ∈ (x.tree 0).nodes 0) :
    2 ≤ members.length ∧ Tree.Joined x.text op span.start members
      (bytes ((Tree.group op span members).text x.text)) := by
  obtain ⟨start, y, isPart, same⟩ := exists_isPart node
  rw [← same, isPart.bytes_text values]
  have opened : y.Open := isPart.opened
  cases opened with
  | word => cases same
  | group op first others =>
    cases same
    refine ⟨Nat.succ_le_succ (List.length_pos_iff.mpr (others.trees_ne_nil _)), ?_⟩
    exact joined isPart.stands fun w member => values w (isPart.words_subset member)

theorem members_within (node : (depth, .group op span members) ∈ (x.tree 0).nodes 0) :
    (members.Pairwise fun a b => a.span.stop < b.span.start) ∧
      ∀ t ∈ members, span.start ≤ t.span.start ∧ t.span.stop ≤ span.stop ∧ t.span ≠ span := by
  obtain ⟨several, joined⟩ := joined_of_node values node
  obtain ⟨start, y, isPart, same⟩ := exists_isPart node
  have placed : span = ⟨start, start + y.text.length⟩ :=
    (congrArg Tree.span same).symm.trans (isPart.opened.span_tree start)
  rw [← same, isPart.bytes_text values, placed] at joined
  refine ⟨joined.pairwise, fun t member => ?_⟩
  have within := joined.within t member
  have other := joined.span_ne several t member
  rw [placed]
  exact ⟨within.1, within.2, other⟩

end

theorem empty_not_mem_nodes {depth : Nat} : (depth, Tree.empty) ∉ (x.tree 0).nodes 0 := by
  intro node
  obtain ⟨start, y, isPart, same⟩ := exists_isPart node
  have opened : y.Open := isPart.opened
  cases opened <;> cases same

/-- The tree of an expression is faithful to the text of the expression. -/
theorem faithfulTo_tree (whole : bytes text = x.text) (within : x.depth ≤ limit.toNat)
    (values : ∀ w ∈ x.words, w.value? = some w.value) : (x.tree 0).FaithfulTo limit text := by
  constructor
  case whole =>
    rw [whole]
    exact ⟨x.pairs, x.fills (List.prefix_refl _) values⟩
  case empty =>
    refine fun {depth} => ⟨fun node => absurd node empty_not_mem_nodes, ?_⟩
    rintro ⟨_, rfl⟩
    exact absurd whole.symm x.text_ne_nil
  case leaf =>
    rw [whole, delivered_text within]
    exact exists_token values
  case group =>
    rw [whole]
    exact joined_of_node values
  case siblings => exact members_within values
  case characters =>
    intro depth node member
    rw [whole]
    obtain ⟨start, y, isPart, rfl⟩ := exists_isPart member
    obtain ⟨front, back, split, length⟩ := isPart.exists_around values whole
    have placed := isPart.opened.span_tree start
    refine ⟨front, back, split, ?_, ?_⟩
    · rw [placed, length]
    · rw [placed, bytes_append, List.length_append, length, isPart.bytes_text values]
  case text?_eq =>
    intro depth node member
    rw [whole]
    obtain ⟨start, y, isPart, rfl⟩ := exists_isPart member
    exact ⟨isPart.text?_eq values, fun empty => absurd empty (isPart.text_ne_empty values)⟩

end Grammar.Expression

/-- The tree of a text is faithful to it. -/
theorem Rules.faithfulTo_of_parse {σ : Type} {rules : Rules σ} {text : String} {tree : Tree}
    {s t : σ} (parsed : (rules.parse (bytes text)).on s = (.ok tree, t)) :
    tree.FaithfulTo rules.limit text := by
  rcases rules.parse_ok parsed with ⟨empty, rfl⟩ | ⟨x, whole, within, rfl, passed⟩
  · rw [bytes_injective (t := "") empty]
    exact Tree.faithfulTo_empty rules.limit
  · exact Expression.faithfulTo_tree whole.symm within (value?_of_audit passed)

/-- The text `(("é"&((A|B))))`, with parentheses around all of it and around the group in it. -/
theorem Rules.faithfulTo_of_parse_parentheses :
    let rules : Rules Unit := { policy? := some fun _ _ => pure true }
    let tree : Tree := .group .and ⟨2, 14⟩
      [.leaf ⟨2, 6⟩ true "é",
        .group .or ⟨9, 12⟩ [.leaf ⟨9, 10⟩ false "A", .leaf ⟨11, 12⟩ false "B"]]
    (∃ t, (rules.parse (bytes "((\"é\"&((A|B))))")).on () = (.ok tree, t)) ∧
      tree.FaithfulTo 512 "((\"é\"&((A|B))))" := by
  intro rules tree
  let e : Word := .spell "é" (by decide)
  let a : Word := .spell "A" (by decide)
  let b : Word := .spell "B" (by decide)
  let inner : Expression := .group .or (.word a) (.last (.word b))
  let x : Expression := .single (.enclosed (.single (.enclosed
    (.group .and (.word e) (.last (.enclosed (.single (.enclosed inner))))))))
  have text : bytes "((\"é\"&((A|B))))" = x.text := by decide
  have steady : rules.policy.Steady (fun _ _ => true) := fun _ _ _ => rfl
  have allowed : ∀ w ∈ x.words, w.Allowed (fun _ _ => true) := by
    show ∀ w ∈ [e, a, b], _
    simp only [List.forall_mem_cons, List.not_mem_nil, false_implies, implies_true, and_true]
    exact ⟨Word.allowed_spell _ rfl, Word.allowed_spell _ rfl, Word.allowed_spell _ rfl⟩
  have same : x.tree 0 = tree := by
    show Tree.group .and ⟨2, 14⟩ [.leaf ⟨2, 6⟩ true e.value, .group .or ⟨9, 12⟩
      [.leaf ⟨9, 10⟩ false a.value, .leaf ⟨11, 12⟩ false b.value]] = tree
    rw [Word.value_spell, Word.value_spell, Word.value_spell]
  obtain ⟨t, parsed⟩ := Rules.parse_yields steady (x := x) (by decide) allowed ()
  rw [← text, same] at parsed
  exact ⟨⟨t, parsed⟩, Rules.faithfulTo_of_parse parsed⟩

end Clearance
