import Clearance.Proofs.Kept
import Clearance.Proofs.Screening
import Clearance.Proofs.Textual

/-! The parts of a label that its tree has nodes for: its words, and its groups without the
parentheses around them. A node is the tree of its part, which stands in the label where the span
of the node says. -/
namespace Clearance

@[simp] theorem Tree.text?_empty (label : List UInt8) : Tree.empty.text? label = some "" :=
  Text.Utf8.decode?_bytes ""

@[simp] theorem Tree.text_empty (label : List UInt8) : Tree.empty.text label = "" := by
  rw [Tree.text, Tree.text?_empty]
  rfl

namespace Grammar

mutual

/-- The parts of an expression that begins at `offset`, each with where it begins, in the order in
which the tree has nodes for them. -/
def Expression.parts (offset : Nat) : Expression → List (Nat × Expression)
  | .single t => t.parts offset
  | .group op first others =>
    (offset, .group op first others) ::
      (first.parts offset ++ others.parts (offset + first.text.length))

def Term.parts (offset : Nat) : Term → List (Nat × Expression)
  | .word w => [(offset, .single (.word w))]
  | .enclosed x => x.parts (offset + 1)

/-- The parts within the members; `offset` is that of the connective before the first of them. -/
def Members.parts (offset : Nat) : Members → List (Nat × Expression)
  | .last t => t.parts (offset + 1)
  | .more t others => t.parts (offset + 1) ++ others.parts (offset + 1 + t.text.length)

end

mutual

/-- The nodes of a tree are the trees of the parts. -/
theorem Expression.nodes_tree : ∀ (x : Expression) (offset depth : Nat),
    ((x.tree offset).nodes depth).map Prod.snd =
      (x.parts offset).map fun part => part.2.tree part.1
  | .single t, offset, depth => t.nodes_tree offset depth
  | .group op first others, offset, depth => by
    rw [Expression.parts, List.map_cons, List.map_append, ← first.nodes_tree offset (depth + 1),
      ← others.nodes_trees _ (depth + 1), ← List.map_append]
    rfl

theorem Term.nodes_tree : ∀ (t : Term) (offset depth : Nat),
    ((t.tree offset).nodes depth).map Prod.snd =
      (t.parts offset).map fun part => part.2.tree part.1
  | .word _, _, _ => rfl
  | .enclosed x, offset, depth => x.nodes_tree (offset + 1) depth

theorem Members.nodes_trees : ∀ (ms : Members) (offset depth : Nat),
    (Tree.memberNodes depth (ms.trees offset)).map Prod.snd =
      (ms.parts offset).map fun part => part.2.tree part.1
  | .last t, offset, depth => by
    rw [Members.trees, Tree.memberNodes, Tree.memberNodes, List.append_nil, Members.parts,
      t.nodes_tree]
  | .more t others, offset, depth => by
    rw [Members.trees, Tree.memberNodes, List.map_append, Members.parts, List.map_append,
      t.nodes_tree, others.nodes_trees]

end

theorem Expression.exists_part {x : Expression} {offset depth at_ : Nat} {node : Tree}
    (member : (depth, node) ∈ (x.tree offset).nodes at_) :
    ∃ part ∈ x.parts offset, part.2.tree part.1 = node := by
  have mapped := List.mem_map_of_mem (f := Prod.snd) member
  rwa [x.nodes_tree, List.mem_map] at mapped

/-- A word or a group, without parentheses around it. -/
inductive Expression.Open : Expression → Prop
  | word (w : Word) : Open (.single (.word w))
  | group (op : Connective) (first : Term) (others : Members) : Open (.group op first others)

theorem Expression.Open.span_tree {x : Expression} (opened : x.Open) (offset : Nat) :
    (x.tree offset).span = ⟨offset, offset + x.text.length⟩ := by
  cases opened with
  | word => rfl
  | group op first others =>
    rw [Expression.tree, Tree.span, Expression.text, List.length_append, Nat.add_assoc]

/-- How a part stands in a label, and what it has from a derivation of this depth, with these words
and tokens. -/
structure IsPart (label : List UInt8) (depth : Nat) (words : List Word) (tokens : List Token)
    (part : Nat × Expression) : Prop where
  opened : part.2.Open
  stands : part.2.text <+: label.drop part.1
  depth_le : part.2.depth ≤ depth
  words_subset : part.2.words ⊆ words
  tokens_subset : part.2.tokens part.1 ⊆ tokens

section

variable {label : List UInt8} {depth depth' : Nat} {words words' : List Word}
  {tokens tokens' : List Token} {part : Nat × Expression}

theorem IsPart.mono (isPart : IsPart label depth words tokens part) (deeper : depth ≤ depth')
    (more : words ⊆ words') (more' : tokens ⊆ tokens') :
    IsPart label depth' words' tokens' part where
  opened := isPart.opened
  stands := isPart.stands
  depth_le := Nat.le_trans isPart.depth_le deeper
  words_subset := fun _ member => more (isPart.words_subset member)
  tokens_subset := fun _ member => more' (isPart.tokens_subset member)

mutual

theorem Expression.isPart : ∀ (x : Expression) {offset : Nat}, x.text <+: label.drop offset →
    ∀ part ∈ x.parts offset, IsPart label x.depth x.words (x.tokens offset) part
  | .single t, _, stands => t.isPart stands
  | .group op first others, offset, stands => by
    obtain ⟨firstStands, othersStand⟩ := prefix_drop_append stands
    rw [Expression.parts, List.forall_mem_cons, List.forall_mem_append]
    refine ⟨⟨.group op first others, stands, Nat.le_refl _, fun _ => id, fun _ => id⟩,
      fun part member => ?_, fun part member => ?_⟩
    · exact (first.isPart firstStands part member).mono (Nat.le_max_left _ _)
        (List.subset_append_left _ _) (List.subset_append_left _ _)
    · exact (others.isPart othersStand part member).mono (Nat.le_max_right _ _)
        (List.subset_append_right _ _) (List.subset_append_right _ _)

theorem Term.isPart : ∀ (t : Term) {offset : Nat}, t.text <+: label.drop offset →
    ∀ part ∈ t.parts offset, IsPart label t.depth t.words (t.tokens offset) part
  | .word w, offset, stands => by
    rw [Term.parts, List.forall_mem_singleton]
    exact ⟨.word w, stands, Nat.le_refl _, fun _ => id, fun _ => id⟩
  | .enclosed x, offset, stands => fun part member => by
    have split : [openByte] ++ (x.text ++ [closeByte]) <+: label.drop offset := stands
    have inner := (prefix_drop_append (prefix_drop_append split).2).1
    exact (x.isPart inner part member).mono (Nat.le_succ _) (fun _ => id) (fun _ => id)

theorem Members.isPart {op : Connective} : ∀ (ms : Members) {offset : Nat},
    ms.text op <+: label.drop offset →
      ∀ part ∈ ms.parts offset, IsPart label ms.depth ms.words (ms.tokens offset) part
  | .last t, offset, stands => by
    have split : [op.byte] ++ t.text <+: label.drop offset := stands
    exact t.isPart (prefix_drop_append split).2
  | .more t others, offset, stands => by
    have split : [op.byte] ++ (t.text ++ others.text op) <+: label.drop offset := stands
    obtain ⟨stands, othersStand⟩ := prefix_drop_append (prefix_drop_append split).2
    rw [Members.parts, List.forall_mem_append]
    refine ⟨fun part member => ?_, fun part member => ?_⟩
    · exact (t.isPart stands part member).mono (Nat.le_max_left _ _)
        (List.subset_append_left _ _) (List.subset_append_left _ _)
    · exact (others.isPart othersStand part member).mono (Nat.le_max_right _ _)
        (List.subset_append_right _ _) (List.subset_append_right _ _)

end

/-- Each node of a tree is that of a part of the whole text. -/
theorem Expression.exists_isPart {x : Expression} {depth : Nat} {node : Tree}
    (member : (depth, node) ∈ (x.tree 0).nodes 0) :
    ∃ start y, IsPart x.text x.depth x.words (x.tokens 0) (start, y) ∧ y.tree start = node := by
  obtain ⟨⟨start, y⟩, found, same⟩ := exists_part member
  have stands : x.text <+: x.text.drop 0 := List.prefix_refl x.text
  exact ⟨start, y, x.isPart stands _ found, same⟩

/-- Each leaf of a tree is that of a word. -/
theorem Expression.exists_isPart_word {x : Expression} {depth : Nat} {span : Span} {quoted : Bool}
    {value : String} (node : (depth, .leaf span quoted value) ∈ (x.tree 0).nodes 0) :
    ∃ start w, IsPart x.text x.depth x.words (x.tokens 0) (start, .single (.word w)) ∧
      (w.token start).span = span ∧ w.isQuoted = quoted ∧ w.value = value := by
  obtain ⟨start, y, isPart, same⟩ := exists_isPart node
  have opened : y.Open := isPart.opened
  cases opened with
  | group => cases same
  | word w =>
    cases same
    exact ⟨start, w, isPart, rfl, rfl, rfl⟩

namespace IsPart

variable (isPart : IsPart label depth words tokens part)
  (values : ∀ w ∈ words, w.value? = some w.value)

include isPart values

theorem isText : IsText part.2.text :=
  part.2.isText_of_values fun w member => values w (isPart.words_subset member)

/-- The span of a node covers the part that it was read from. -/
theorem bytes_text : Text.Utf8.bytes ((part.2.tree part.1).text label) = part.2.text := by
  obtain ⟨text, decoded⟩ := Option.isSome_iff_exists.mp (isText_iff.mp (isPart.isText values))
  rw [Tree.text, Tree.text?, isPart.opened.span_tree, slice_of_prefix_drop isPart.stands, decoded]
  exact (Text.Utf8.decode?_eq_some.mp decoded).symm

theorem text?_eq :
    (part.2.tree part.1).text? label = some ((part.2.tree part.1).text label) := by
  rw [Tree.text?, Text.Utf8.decode?_eq_some, isPart.bytes_text values, isPart.opened.span_tree,
    slice_of_prefix_drop isPart.stands]

theorem text_ne_empty : (part.2.tree part.1).text label ≠ "" := by
  intro empty
  have bytes := isPart.bytes_text values
  rw [empty] at bytes
  exact part.2.text_ne_nil bytes.symm

/-- A part of a text begins and ends between two of its characters. -/
theorem exists_around {text : String} (whole : Text.Utf8.bytes text = label) :
    ∃ front back : String, text = front ++ (part.2.tree part.1).text label ++ back ∧
      (Text.Utf8.bytes front).length = part.1 := by
  obtain ⟨rest, split⟩ := isPart.stands
  obtain ⟨b, bs, begins, ascii⟩ := part.2.text_begins
  have within : part.1 < label.length := by
    have longer := congrArg List.length split
    rw [List.length_append, begins, List.length_cons, List.length_drop] at longer
    omega
  have textual : IsText (label.take part.1 ++ (part.2.text ++ rest)) := by
    rw [split, List.take_append_drop, ← whole]
    exact ⟨text.toList, rfl⟩
  have before : IsText (label.take part.1) := by
    rw [begins] at textual
    exact textual.before ascii
  obtain ⟨back, backBytes⟩ := (textual.behind before).behind (isPart.isText values)
  obtain ⟨front, frontBytes⟩ := before
  refine ⟨String.ofList front, String.ofList back, Text.Utf8.bytes_injective ?_, ?_⟩
  · rw [Text.Utf8.bytes_append, Text.Utf8.bytes_append, Text.Utf8.bytes_ofList,
      Text.Utf8.bytes_ofList, isPart.bytes_text values, ← frontBytes, ← backBytes,
      List.append_assoc, split, List.take_append_drop, whole]
  · rw [Text.Utf8.bytes_ofList, ← frontBytes, List.length_take,
      Nat.min_eq_left (Nat.le_of_lt within)]

end IsPart

end

mutual

/-- How many pairs of parentheses stand around all of an expression. -/
def Expression.pairs : Expression → Nat
  | .single t => t.pairs
  | .group .. => 0

def Term.pairs : Term → Nat
  | .word _ => 0
  | .enclosed x => x.pairs + 1

end

mutual

/-- An expression without the parentheses around all of it. -/
def Expression.core : Expression → Expression
  | .single t => t.core
  | .group op first others => .group op first others

def Term.core : Term → Expression
  | .word w => .single (.word w)
  | .enclosed x => x.core

end

/-- Bytes in `n` pairs of parentheses. -/
def enclose (n : Nat) (bytes : List UInt8) : List UInt8 :=
  List.replicate n openByte ++ bytes ++ List.replicate n closeByte

@[simp] theorem enclose_zero (bytes : List UInt8) : enclose 0 bytes = bytes := List.append_nil bytes

theorem enclose_succ (n : Nat) (bytes : List UInt8) :
    enclose (n + 1) bytes = openByte :: enclose n bytes ++ [closeByte] := by
  rw [enclose, List.replicate_succ, List.replicate_succ', enclose, List.cons_append,
    List.cons_append, ← List.append_assoc, List.cons_append]

mutual

theorem Expression.text_core : ∀ x : Expression, x.text = enclose x.pairs x.core.text
  | .single t => t.text_core
  | .group .. => (enclose_zero _).symm

theorem Term.text_core : ∀ t : Term, t.text = enclose t.pairs t.core.text
  | .word _ => (enclose_zero _).symm
  | .enclosed x => by rw [Term.text, Term.pairs, Term.core, enclose_succ, ← x.text_core]

end

mutual

theorem Expression.tree_core : ∀ (x : Expression) (offset : Nat),
    x.tree offset = x.core.tree (offset + x.pairs)
  | .single t, offset => t.tree_core offset
  | .group .., _ => rfl

theorem Term.tree_core : ∀ (t : Term) (offset : Nat),
    t.tree offset = t.core.tree (offset + t.pairs)
  | .word _, _ => rfl
  | .enclosed x, offset => by
    rw [Term.tree, Term.core, Term.pairs, Nat.add_comm x.pairs, ← Nat.add_assoc, ← x.tree_core]

end

mutual

theorem Expression.core_mem_parts : ∀ (x : Expression) (offset : Nat),
    (offset + x.pairs, x.core) ∈ x.parts offset
  | .single t, offset => t.core_mem_parts offset
  | .group .., _ => List.mem_cons_self

theorem Term.core_mem_parts : ∀ (t : Term) (offset : Nat),
    (offset + t.pairs, t.core) ∈ t.parts offset
  | .word _, _ => List.mem_cons_self
  | .enclosed x, offset => by
    have member := x.core_mem_parts (offset + 1)
    rwa [Nat.add_assoc, Nat.add_comm 1] at member

end

end Grammar

end Clearance
