import Clearance.Formula.Written
import Clearance.Proofs.Canonical
import Clearance.Proofs.Quoting
import Clearance.Proofs.Trees

/-! Formulas as derivations. What is written for a formula is the text of a derivation that says
the same, so formulas that are written alike are equal. -/
namespace Clearance

namespace Grammar

mutual

/-- What an expression says, without its spelling. -/
def Expression.formula : Expression → Formula
  | .single t => t.formula
  | .group op first others => .group op (first.formula :: others.formulas)

def Term.formula : Term → Formula
  | .word w => .atom w.value
  | .enclosed x => x.formula

def Members.formulas : Members → List Formula
  | .last t => [t.formula]
  | .more t others => t.formula :: others.formulas

end

mutual

theorem Expression.formula?_tree : ∀ (x : Expression) (offset : Nat),
    (x.tree offset).formula? = some x.formula
  | .single t, offset => t.formula?_tree offset
  | .group op first others, offset => by
    rw [Expression.tree, Tree.formula?, Tree.formulas, first.formula?_tree offset,
      others.formulas_trees, Expression.formula]

theorem Term.formula?_tree : ∀ (t : Term) (offset : Nat),
    (t.tree offset).formula? = some t.formula
  | .word _, _ => rfl
  | .enclosed x, offset => x.formula?_tree (offset + 1)

theorem Members.formulas_trees : ∀ (ms : Members) (offset : Nat),
    Tree.formulas (ms.trees offset) = ms.formulas
  | .last t, offset => by
    rw [Members.trees, Tree.formulas, t.formula?_tree, Tree.formulas, Members.formulas]
  | .more t others, offset => by
    rw [Members.trees, Tree.formulas, t.formula?_tree, others.formulas_trees, Members.formulas]

end

end Grammar

namespace Formula

open Grammar

/-- A formula that has a label: its values are not empty, and each group has two members. -/
inductive Writable : Formula → Prop where
  | atom {value : String} (nonempty : value ≠ "") : Writable (.atom value)
  | group {op : Connective} {members : List Formula} (two : 2 ≤ members.length)
      (each : ∀ m ∈ members, Writable m) : Writable (.group op members)

theorem encode_symbol (op : Connective) (cs : List Char) :
    Text.Utf8.encode (op.symbol :: cs) = op.byte :: Text.Utf8.encode cs := by
  cases op <;> rfl

mutual

/-- The ways to write a formula: each value as it is quoted, a group as its members with its
connective between them, and either in as many further pairs of parentheses as one likes. -/
inductive Rendering : Formula → List Char → Prop where
  | atom {value text : String} (quoted : Spelling.quote value = .ok text) :
      Rendering (.atom value) text.toList
  | group {op : Connective} {members : List Formula} {text : List Char}
      (two : 2 ≤ members.length) (joined : JoinedRendering op members text) :
      Rendering (.group op members) text
  | enclosed {f : Formula} {text : List Char} (inner : Rendering f text) :
      Rendering f ('(' :: text ++ [')'])

/-- The ways to write a member of a group: a group among them has at least one pair. -/
inductive MemberRendering : Formula → List Char → Prop where
  | atom {value text : String} (quoted : Spelling.quote value = .ok text) :
      MemberRendering (.atom value) text.toList
  | enclosed {f : Formula} {text : List Char} (inner : Rendering f text) :
      MemberRendering f ('(' :: text ++ [')'])

/-- The ways to write some members with a connective between them. -/
inductive JoinedRendering : Connective → List Formula → List Char → Prop where
  | last {op : Connective} {m : Formula} {text : List Char} (member : MemberRendering m text) :
      JoinedRendering op [m] text
  | more {op : Connective} {m : Formula} {ms : List Formula} {text rest : List Char}
      (member : MemberRendering m text) (others : JoinedRendering op ms rest) :
      JoinedRendering op (m :: ms) (text ++ op.symbol :: rest)

end

theorem exists_word {value text : String} (quoted : Spelling.quote value = .ok text) :
    ∃ w : Word, w.text = Text.Utf8.encode text.toList ∧ w.value = value ∧ w.Spelled := by
  obtain ⟨nonempty, rfl⟩ := Spelling.quote_eq_ok_iff.mp quoted
  exact ⟨.spell value nonempty, Word.text_spell value nonempty, Word.value_spell value nonempty,
    value, nonempty, rfl⟩

theorem encode_enclosed (cs : List Char) :
    Text.Utf8.encode ('(' :: cs ++ [')']) = openByte :: Text.Utf8.encode cs ++ [closeByte] := by
  rw [Text.Utf8.encode_append, Text.Utf8.encode_cons]
  rfl

mutual

/-- Whatever way a formula is written, a derivation of the text says the same. -/
theorem Rendering.exists_expression : ∀ {f : Formula} {text : List Char}, f.Rendering text →
    ∃ x : Expression, x.text = Text.Utf8.encode text ∧ x.formula = f ∧ ∀ w ∈ x.words, w.Spelled
  | _, _, .atom quoted => by
    obtain ⟨w, text, rfl, spelled⟩ := exists_word quoted
    exact ⟨.single (.word w), text, rfl, List.forall_mem_singleton.mpr spelled⟩
  | _, _, .group two (.last _) => absurd two (by simp)
  | .group op _, _, .group _ (.more member others) => by
    obtain ⟨first, text, rfl, spelled⟩ := member.exists_term
    obtain ⟨ms, textOthers, rfl, spelledOthers⟩ := others.exists_members
    refine ⟨.group op first ms, ?_, rfl, List.forall_mem_append.mpr ⟨spelled, spelledOthers⟩⟩
    rw [Expression.text, text, textOthers, Text.Utf8.encode_append, encode_symbol]
  | _, _, .enclosed inner => by
    obtain ⟨x, text, rfl, spelled⟩ := inner.exists_expression
    refine ⟨.single (.enclosed x), ?_, rfl, spelled⟩
    rw [encode_enclosed, ← text]
    rfl

theorem MemberRendering.exists_term : ∀ {f : Formula} {text : List Char},
    f.MemberRendering text → ∃ t : Term, t.text = Text.Utf8.encode text ∧ t.formula = f ∧
      ∀ w ∈ t.words, w.Spelled
  | _, _, .atom quoted => by
    obtain ⟨w, text, rfl, spelled⟩ := exists_word quoted
    exact ⟨.word w, text, rfl, List.forall_mem_singleton.mpr spelled⟩
  | _, _, .enclosed inner => by
    obtain ⟨x, text, rfl, spelled⟩ := inner.exists_expression
    refine ⟨.enclosed x, ?_, rfl, spelled⟩
    rw [encode_enclosed, ← text]
    rfl

theorem JoinedRendering.exists_members : ∀ {op : Connective} {fs : List Formula}
    {text : List Char}, JoinedRendering op fs text → ∃ ms : Members,
      ms.text op = op.byte :: Text.Utf8.encode text ∧ ms.formulas = fs ∧
        ∀ w ∈ ms.words, w.Spelled
  | _, _, _, .last member => by
    obtain ⟨t, text, rfl, spelled⟩ := member.exists_term
    refine ⟨.last t, ?_, rfl, spelled⟩
    rw [Members.text, text]
  | op, _, _, .more member others => by
    obtain ⟨t, text, rfl, spelled⟩ := member.exists_term
    obtain ⟨ms, textOthers, rfl, spelledOthers⟩ := others.exists_members
    refine ⟨.more t ms, ?_, rfl, List.forall_mem_append.mpr ⟨spelled, spelledOthers⟩⟩
    rw [Members.text, text, textOthers, Text.Utf8.encode_append, encode_symbol]
    rfl

end

mutual

/-- What is written for a formula is one of the ways to write it. -/
theorem rendering_characters : ∀ f : Formula, f.Writable → f.Rendering f.characters
  | .atom v, .atom nonempty => .atom (Spelling.quote_eq_ok_iff.mpr ⟨nonempty, rfl⟩)
  | .group op ms, .group two each => by
    have nonempty : ms ≠ [] := List.ne_nil_of_length_pos (Nat.lt_of_lt_of_le Nat.two_pos two)
    exact .group two (rendering_joined op ms nonempty each)

theorem rendering_enclosed : ∀ f : Formula, f.Writable → f.MemberRendering f.enclosed
  | .atom v, .atom nonempty => .atom (Spelling.quote_eq_ok_iff.mpr ⟨nonempty, rfl⟩)
  | .group op ms, .group two each => by
    have nonempty : ms ≠ [] := List.ne_nil_of_length_pos (Nat.lt_of_lt_of_le Nat.two_pos two)
    exact .enclosed (.group two (rendering_joined op ms nonempty each))

theorem rendering_joined (op : Connective) : ∀ fs : List Formula, fs ≠ [] →
    (∀ f ∈ fs, f.Writable) → JoinedRendering op fs (joined op fs)
  | [f], _, each => .last (rendering_enclosed f (each f List.mem_cons_self))
  | f :: g :: fs, _, each => by
    obtain ⟨here, rest⟩ := List.forall_mem_cons.mp each
    exact .more (rendering_enclosed f here)
      (rendering_joined op (g :: fs) (List.cons_ne_nil _ _) rest)

end

/-- What is written for a formula is derived, and by a derivation that says the same. -/
theorem exists_expression {f : Formula} (writable : f.Writable) :
    ∃ x : Expression, x.text = Text.Utf8.bytes f.written ∧ x.formula = f ∧
      ∀ w ∈ x.words, w.Spelled := by
  rw [written, Text.Utf8.bytes_ofList]
  exact (rendering_characters f writable).exists_expression

/-- Formulas that are written alike are equal. -/
theorem written_injective {f g : Formula} (hf : f.Writable) (hg : g.Writable)
    (same : f.written = g.written) : f = g := by
  obtain ⟨x, textX, rfl, _⟩ := exists_expression hf
  obtain ⟨y, textY, rfl, _⟩ := exists_expression hg
  rw [Expression.text_injective (textX.trans ((congrArg Text.Utf8.bytes same).trans textY.symm))]

theorem written_ne_empty {f : Formula} (writable : f.Writable) : f.written ≠ "" := by
  intro empty
  obtain ⟨x, text, _, _⟩ := exists_expression writable
  rw [empty] at text
  exact x.text_ne_nil text

/-- A canonical formula has a label if its values are not empty. -/
theorem Canonical.writable {f : Formula} (canonical : f.Canonical)
    (values : ∀ v ∈ f.values, v ≠ "") : f.Writable := by
  induction canonical with
  | atom v => exact .atom (values v List.mem_cons_self)
  | group two _ _ _ ih =>
    apply Writable.group two
    intro m member
    apply ih m member
    intro v inside
    exact values v (mem_memberValues.mpr ⟨m, member, inside⟩)

end Formula

end Clearance
