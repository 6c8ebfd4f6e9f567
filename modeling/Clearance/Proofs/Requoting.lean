import Clearance.Proofs.Preserving
import Clearance.Proofs.Sources
import Clearance.Proofs.Writing
import Mathlib.Data.List.Forall2

/-! Labels with some of their quotes put on or taken off. A token whose value is bare may stand
with quotes or without, and a label that is rewritten in this way is derived as it was before:
word for word, with the same parentheses and the same bodies. Its tree is the same but for spans
and quotes. -/
namespace Clearance

/-- How a token may be written: as it stands or, if its value is bare, without quotes or with
them. -/
inductive Token.Requoted (t : Token) : List UInt8 → Prop where
  | kept : Requoted t t.text
  | bare {v : String} (known : t.value = .ok v) (bare : Spelling.isBareValue v = true) :
      Requoted t t.body
  | quoted {v : String} (known : t.value = .ok v) (bare : Spelling.isBareValue v = true) :
      Requoted t (quoteByte :: t.body ++ [quoteByte])

/-- A label from `start` on, with these tokens of it written anew. -/
def requote (label : List UInt8) (spell : Token → List UInt8) (start : Nat) :
    List Token → List UInt8
  | [] => label.drop start
  | t :: ts => (Span.mk start t.span.start).slice label ++ spell t ++
      requote label spell t.span.stop ts

/-- Trees of one shape: their groups have the same connectives and as many members, and their
leaves the same values. -/
inductive Tree.Alike : Tree → Tree → Prop where
  | empty : Alike .empty .empty
  | leaf (span span' : Span) (quoted quoted' : Bool) (value : String) :
      Alike (.leaf span quoted value) (.leaf span' quoted' value)
  | group (op : Connective) (span span' : Span) {members members' : List Tree}
      (alike : List.Forall₂ Alike members members') :
      Alike (.group op span members) (.group op span' members')

namespace Tree

mutual

theorem Alike.formula?_eq : ∀ {t u : Tree}, t.Alike u → t.formula? = u.formula?
  | _, _, .empty => rfl
  | _, _, .leaf .. => rfl
  | .group _ _ members, _, .group op _ _ alike => by
    rw [formula?, formula?, formulas_eq_of_alike alike]

theorem formulas_eq_of_alike : ∀ {ts us : List Tree}, List.Forall₂ Alike ts us →
    formulas ts = formulas us
  | _, _, .nil => rfl
  | t :: ts, _, .cons alike others => by
    rw [formulas, formulas, alike.formula?_eq, formulas_eq_of_alike others]

end

theorem Alike.normalized_eq {t u : Tree} (alike : t.Alike u) : t.normalized = u.normalized := by
  rw [normalized, normalized, alike.formula?_eq]

end Tree

namespace Grammar

/-- A word with the body of another. Where only one of them is in quotes, the body is bare. -/
structure Word.Requoted (v w : Word) : Prop where
  body_eq : v.body = w.body
  bare_or_alike : isBare v.body = true ∨ v.isQuoted = w.isQuoted

theorem Word.Requoted.refl (w : Word) : w.Requoted w := ⟨rfl, Or.inr rfl⟩

theorem Word.Requoted.value?_eq {v w : Word} (requoted : v.Requoted w) : v.value? = w.value? :=
  congrArg (fun body => Text.Utf8.decode? (Escape.strip body)) requoted.body_eq

theorem Word.Requoted.value_eq {v w : Word} (requoted : v.Requoted w) : v.value = w.value :=
  congrArg (Option.getD · "") requoted.value?_eq

theorem Word.isBare_body {w : Word} {v : String} (known : w.value? = some v)
    (bare : Spelling.isBareValue v = true) : isBare w.body = true := by
  rwa [w.body_eq known, Escape.escape_of_unmarked (isMark_of_bare bare)]

/-- Each way to write the token of a word is the text of a word again. -/
theorem Word.exists_requoted {w : Word} {offset : Nat} {text : List UInt8}
    (written : (w.token offset).Requoted text) : ∃ v, w.Requoted v ∧ v.text = text := by
  cases written with
  | kept => exact ⟨w, .refl w, rfl⟩
  | bare ok bare =>
    have all := Word.isBare_body (Word.value?_of_token ok) bare
    exact ⟨.bare w.body w.body_ne_nil all, ⟨rfl, Or.inl all⟩, rfl⟩
  | quoted ok bare =>
    have known := Word.value?_of_token ok
    have all := Word.isBare_body known bare
    have escaped : Escape.Escaped w.body := by
      rw [w.body_eq known]
      exact Escape.escaped_escape _
    exact ⟨.quoted w.body w.body_ne_nil escaped, ⟨rfl, Or.inl all⟩, rfl⟩

mutual

/-- Derivations that differ in the quotes of their words. -/
inductive Expression.Requoted : Expression → Expression → Prop where
  | single {t u : Term} (term : t.Requoted u) : Expression.Requoted (.single t) (.single u)
  | group (op : Connective) {first first' : Term} {others others' : Members}
      (begins : first.Requoted first') (continues : others.Requoted others') :
      Expression.Requoted (.group op first others) (.group op first' others')

inductive Term.Requoted : Term → Term → Prop where
  | word {v w : Word} (word : v.Requoted w) : Term.Requoted (.word v) (.word w)
  | enclosed {x y : Expression} (inner : x.Requoted y) :
      Term.Requoted (.enclosed x) (.enclosed y)

inductive Members.Requoted : Members → Members → Prop where
  | last {t u : Term} (term : t.Requoted u) : Members.Requoted (.last t) (.last u)
  | more {t u : Term} {others others' : Members} (term : t.Requoted u)
      (continues : others.Requoted others') :
      Members.Requoted (.more t others) (.more u others')

end

mutual

theorem Expression.Requoted.depth_eq : ∀ {x y : Expression}, x.Requoted y → x.depth = y.depth
  | _, _, .single term => term.depth_eq
  | _, _, .group _ begins continues => by
    rw [Expression.depth, Expression.depth, begins.depth_eq, continues.depth_eq]

theorem Term.Requoted.depth_eq : ∀ {t u : Term}, t.Requoted u → t.depth = u.depth
  | _, _, .word _ => rfl
  | _, _, .enclosed inner => congrArg (· + 1) inner.depth_eq

theorem Members.Requoted.depth_eq : ∀ {ms ns : Members}, ms.Requoted ns → ms.depth = ns.depth
  | _, _, .last term => term.depth_eq
  | _, _, .more term continues => by
    rw [Members.depth, Members.depth, term.depth_eq, continues.depth_eq]

end

mutual

theorem Expression.Requoted.tree_alike : ∀ {x y : Expression}, x.Requoted y →
    ∀ offset offset', (x.tree offset).Alike (y.tree offset')
  | _, _, .single term, offset, offset' => term.tree_alike offset offset'
  | _, _, .group op begins continues, _, _ =>
    .group op _ _ (.cons (begins.tree_alike _ _) (continues.trees_alike _ _))

theorem Term.Requoted.tree_alike : ∀ {t u : Term}, t.Requoted u →
    ∀ offset offset', (t.tree offset).Alike (u.tree offset')
  | _, _, .word word, offset, offset' => by
    rw [Term.tree, Term.tree, word.value_eq]
    exact .leaf ..
  | _, _, .enclosed inner, offset, offset' => inner.tree_alike (offset + 1) (offset' + 1)

theorem Members.Requoted.trees_alike : ∀ {ms ns : Members}, ms.Requoted ns →
    ∀ offset offset', List.Forall₂ Tree.Alike (ms.trees offset) (ns.trees offset')
  | _, _, .last term, _, _ => .cons (term.tree_alike _ _) .nil
  | _, _, .more term continues, _, _ => .cons (term.tree_alike _ _) (continues.trees_alike _ _)

end

section

variable {label : List UInt8} {spell : Token → List UInt8}

/-- A byte before the tokens is kept. -/
theorem requote_byte {start stop : Nat} {b : UInt8} {ts : List Token}
    (stands : [b] <+: label.drop start) (inOrder : InOrder (start + 1) stop ts) :
    requote label spell start ts = b :: requote label spell (start + 1) ts := by
  have split : label.drop start = b :: label.drop (start + 1) := by
    rw [← List.drop_drop]
    exact (List.prefix_iff_eq_append.mp stands).symm
  cases ts with
  | nil => exact split
  | cons t ts =>
    have length : t.span.start - start = t.span.start - (start + 1) + 1 := by
      have before := inOrder.1
      omega
    simp [requote, Span.slice, Span.length, split, length]

mutual

/-- Where the tokens of an expression are written anew, its text becomes that of an expression
that differs in the quotes of its words. -/
theorem Expression.exists_requoted : ∀ (x : Expression) (offset : Nat),
    x.text <+: label.drop offset → (∀ t ∈ x.tokens offset, t.Requoted (spell t)) →
      ∃ y, x.Requoted y ∧ ∀ {stop ts}, InOrder (offset + x.text.length) stop ts →
        requote label spell offset (x.tokens offset ++ ts) =
          y.text ++ requote label spell (offset + x.text.length) ts
  | .single t, offset, stands, needless => by
    obtain ⟨u, requoted, text⟩ := t.exists_requoted offset stands needless
    exact ⟨.single u, .single requoted, text⟩
  | .group op first others, offset, stands, needless => by
    obtain ⟨firstStands, othersStand⟩ := prefix_drop_append stands
    obtain ⟨firstNeedless, othersNeedless⟩ := List.forall_mem_append.mp needless
    obtain ⟨first', begins, firstText⟩ := first.exists_requoted offset firstStands firstNeedless
    obtain ⟨others', continues, othersText⟩ := others.exists_requoted op
      (offset + first.text.length) othersStand othersNeedless
    refine ⟨.group op first' others', .group op begins continues, fun {stop ts} inOrder => ?_⟩
    have length : offset + (Expression.group op first others).text.length =
        offset + first.text.length + (others.text op).length := by
      simp only [Expression.text, List.length_append]
      omega
    rw [length] at inOrder ⊢
    rw [Expression.tokens, List.append_assoc,
      firstText ((others.tokens_inOrder op _).append inOrder), othersText inOrder,
      Expression.text, List.append_assoc]

theorem Term.exists_requoted : ∀ (t : Term) (offset : Nat),
    t.text <+: label.drop offset → (∀ token ∈ t.tokens offset, token.Requoted (spell token)) →
      ∃ u, t.Requoted u ∧ ∀ {stop ts}, InOrder (offset + t.text.length) stop ts →
        requote label spell offset (t.tokens offset ++ ts) =
          u.text ++ requote label spell (offset + t.text.length) ts
  | .word w, offset, stands, needless => by
    obtain ⟨v, requoted, text⟩ := Word.exists_requoted (needless _ List.mem_cons_self)
    refine ⟨.word v, .word requoted, fun {_ ts} _ => ?_⟩
    have nothing : (Span.mk offset offset).slice label = [] := by simp [Span.slice, Span.length]
    show (Span.mk offset offset).slice label ++ spell (w.token offset) ++ _ = _
    rw [nothing, List.nil_append, ← text]
    rfl
  | .enclosed x, offset, stands, needless => by
    have split : [openByte] ++ (x.text ++ [closeByte]) <+: label.drop offset := stands
    obtain ⟨opens, inside⟩ := prefix_drop_append split
    have ⟨innerStands, closes⟩ : x.text <+: label.drop (offset + 1) ∧
        [closeByte] <+: label.drop (offset + 1 + x.text.length) := prefix_drop_append inside
    obtain ⟨y, inner, text⟩ := x.exists_requoted (offset + 1) innerStands needless
    refine ⟨.enclosed y, .enclosed inner, fun {stop ts} inOrder => ?_⟩
    have length : offset + (Term.enclosed x).text.length = offset + 1 + x.text.length + 1 := by
      simp only [Term.text, List.length_append, List.length_cons, List.length_nil]
      omega
    rw [length] at inOrder ⊢
    have behind := inOrder.of_le (Nat.le_succ _)
    rw [Term.tokens, requote_byte opens ((x.tokens_inOrder (offset + 1)).append behind),
      text behind, requote_byte closes inOrder]
    simp [Term.text]

theorem Members.exists_requoted (op : Connective) : ∀ (ms : Members) (offset : Nat),
    ms.text op <+: label.drop offset → (∀ t ∈ ms.tokens offset, t.Requoted (spell t)) →
      ∃ ns, ms.Requoted ns ∧ ∀ {stop ts}, InOrder (offset + (ms.text op).length) stop ts →
        requote label spell offset (ms.tokens offset ++ ts) =
          ns.text op ++ requote label spell (offset + (ms.text op).length) ts
  | .last t, offset, stands, needless => by
    have split : [op.byte] ++ t.text <+: label.drop offset := stands
    obtain ⟨before, termStands⟩ := prefix_drop_append split
    obtain ⟨u, term, text⟩ := t.exists_requoted (offset + 1) termStands needless
    refine ⟨.last u, .last term, fun {stop ts} inOrder => ?_⟩
    have length : offset + ((Members.last t).text op).length = offset + 1 + t.text.length := by
      simp only [Members.text, List.length_cons]
      omega
    rw [length] at inOrder ⊢
    rw [Members.tokens, requote_byte before ((t.tokens_inOrder (offset + 1)).append inOrder),
      text inOrder]
    rfl
  | .more t others, offset, stands, needless => by
    have split : [op.byte] ++ (t.text ++ others.text op) <+: label.drop offset := stands
    obtain ⟨before, behind⟩ := prefix_drop_append split
    obtain ⟨termStands, othersStand⟩ := prefix_drop_append behind
    obtain ⟨termNeedless, othersNeedless⟩ := List.forall_mem_append.mp needless
    obtain ⟨u, term, text⟩ := t.exists_requoted (offset + 1) termStands termNeedless
    obtain ⟨others', continues, othersText⟩ := others.exists_requoted op
      (offset + 1 + t.text.length) othersStand othersNeedless
    refine ⟨.more u others', .more term continues, fun {stop ts} inOrder => ?_⟩
    have length : offset + ((Members.more t others).text op).length =
        offset + 1 + t.text.length + (others.text op).length := by
      simp only [Members.text, List.length_append, List.length_cons]
      omega
    rw [length] at inOrder ⊢
    have later := (others.tokens_inOrder op (offset + 1 + t.text.length)).append inOrder
    have whole := (t.tokens_inOrder (offset + 1)).append later
    rw [Members.tokens, List.append_assoc, requote_byte before whole, text later,
      othersText inOrder]
    simp [Members.text]

end

/-- A label whose tokens are written anew has a derivation that differs in the quotes of its
words. -/
theorem Expression.exists_requoted_text {x : Expression} {limit : UInt32}
    (within : x.depth ≤ limit.toNat)
    (needless : ∀ t ∈ delivered limit x.text, t.Requoted (spell t)) :
    ∃ y, x.Requoted y ∧ requote x.text spell 0 (delivered limit x.text) = y.text := by
  rw [Expression.delivered_text within] at needless ⊢
  obtain ⟨y, requoted, text⟩ := x.exists_requoted 0 (List.prefix_refl _) needless
  have ends : InOrder (0 + x.text.length) (0 + x.text.length) [] := Nat.le_refl _
  have whole := text ends
  rw [List.append_nil, requote, Nat.zero_add, List.drop_length, List.append_nil] at whole
  exact ⟨y, requoted, whole⟩

end

end Grammar

end Clearance
