import Clearance.Connective
import Clearance.Proofs.Escaping
import Clearance.Token

/-! The grammar of labels, as derivation trees and the text that each of them spells. A
derivation fixes its text and, as `Expression.text_injective` says, a text its derivation.
How deep parentheses nest is said of bytes, without the grammar, and found to be the depth of
the derivation. -/
namespace Clearance.Grammar

/-- An authorization as it may be written: a run of bare bytes, or escaped text in quotes.
Neither is empty. No two words stand side by side, so a run is as long as it can be. -/
inductive Word where
  | bare (bytes : List UInt8) (nonempty : bytes ≠ []) (all : isBare bytes = true)
  | quoted (body : List UInt8) (nonempty : body ≠ []) (escaped : Escape.Escaped body)

namespace Word

def body : Word → List UInt8
  | bare bytes _ _ => bytes
  | quoted body _ _ => body

def isQuoted : Word → Bool
  | bare .. => false
  | quoted .. => true

def text : Word → List UInt8
  | bare bytes _ _ => bytes
  | quoted body _ _ => quoteByte :: body ++ [quoteByte]

theorem text_ne_nil (w : Word) : w.text ≠ [] := by
  cases w with
  | bare bytes nonempty _ => exact nonempty
  | quoted => exact List.cons_ne_nil _ _

/-- The token that the word is at an offset. -/
def token (w : Word) (offset : Nat) : Token where
  text := w.text
  body := w.body
  span := ⟨offset, offset + w.text.length⟩
  quoted := w.isQuoted
  escapes := w.body.contains escapeByte

end Word

mutual

/-- A term alone, or two or more terms joined by one connective. -/
inductive Expression where
  | single (term : Term)
  | group (op : Connective) (first : Term) (others : Members)

/-- A word, or an expression in parentheses. -/
inductive Term where
  | word (word : Word)
  | enclosed (inner : Expression)

/-- The members of a group behind its first one. -/
inductive Members where
  | last (term : Term)
  | more (term : Term) (others : Members)

end

mutual

def Expression.text : Expression → List UInt8
  | .single t => t.text
  | .group op first others => first.text ++ others.text op

def Term.text : Term → List UInt8
  | .word w => w.text
  | .enclosed x => openByte :: x.text ++ [closeByte]

/-- Each member stands behind the connective. -/
def Members.text (op : Connective) : Members → List UInt8
  | .last t => op.byte :: t.text
  | .more t others => op.byte :: t.text ++ others.text op

end

mutual

/-- How deep parentheses nest in a derivation. -/
def Expression.depth : Expression → Nat
  | .single t => t.depth
  | .group _ first others => max first.depth others.depth

def Term.depth : Term → Nat
  | .word _ => 0
  | .enclosed x => x.depth + 1

def Members.depth : Members → Nat
  | .last t => t.depth
  | .more t others => max t.depth others.depth

end

mutual

/-- The words of a derivation, in the order of its text. -/
def Expression.words : Expression → List Word
  | .single t => t.words
  | .group _ first others => first.words ++ others.words

def Term.words : Term → List Word
  | .word w => [w]
  | .enclosed x => x.words

def Members.words : Members → List Word
  | .last t => t.words
  | .more t others => t.words ++ others.words

end

theorem Term.text_ne_nil : ∀ t : Term, t.text ≠ []
  | .word w => w.text_ne_nil
  | .enclosed _ => List.cons_ne_nil _ _

theorem Expression.text_ne_nil : ∀ x : Expression, x.text ≠ []
  | .single t => t.text_ne_nil
  | .group _ first _ => List.append_ne_nil_of_left_ne_nil first.text_ne_nil _

theorem Members.text_eq_cons (op : Connective) :
    ∀ ms : Members, ∃ bs, ms.text op = op.byte :: bs
  | .last t => ⟨t.text, rfl⟩
  | .more t others => ⟨t.text ++ others.text op, rfl⟩

/-- No bare byte comes next, so a run of bare bytes ends here. -/
def EndsTerm (rest : List UInt8) : Prop :=
  ∀ b, rest.head? = some b → isBareByte b = false

/-- Neither a bare byte nor a connective comes next, so an expression ends here. -/
def EndsExpression (rest : List UInt8) : Prop :=
  ∀ b, rest.head? = some b → isBareByte b = false ∧ Connective.ofByte? b = none

theorem EndsExpression.endsTerm {rest : List UInt8} (ends : EndsExpression rest) :
    EndsTerm rest :=
  fun b hb => (ends b hb).1

theorem endsExpression_nil : EndsExpression [] := by
  intro b hb
  cases hb

theorem endsExpression_close (rest : List UInt8) : EndsExpression (closeByte :: rest) := by
  intro b hb
  cases hb
  exact ⟨isBareByte_close, rfl⟩

theorem isBareByte_connective (op : Connective) : isBareByte op.byte = false := by
  cases op <;> decide

theorem endsTerm_connective (op : Connective) (rest : List UInt8) : EndsTerm (op.byte :: rest) := by
  intro b hb
  cases hb
  exact isBareByte_connective op

theorem endsTerm_members (op : Connective) (ms : Members) (rest : List UInt8) :
    EndsTerm (ms.text op ++ rest) := by
  obtain ⟨bs, text⟩ := ms.text_eq_cons op
  rw [text]
  exact endsTerm_connective op _

/-- Where an expression ends, no connective follows. -/
theorem EndsExpression.ne_connective {rest : List UInt8} (ends : EndsExpression rest)
    (op : Connective) (more : List UInt8) : rest ≠ op.byte :: more := by
  rintro rfl
  have none := (ends op.byte rfl).2
  rw [Connective.ofByte?_eq_some.mpr rfl] at none
  cases none

/-- Where an expression ends, no further member of a group begins. -/
theorem EndsExpression.ne_members {rest : List UInt8} (ends : EndsExpression rest)
    (op : Connective) (ms : Members) (more : List UInt8) : rest ≠ ms.text op ++ more := by
  obtain ⟨bs, text⟩ := ms.text_eq_cons op
  rw [text]
  exact ends.ne_connective op _

theorem takeWhile_bare {xs rest : List UInt8} (all : isBare xs = true) (ends : EndsTerm rest) :
    (xs ++ rest).takeWhile isBareByte = xs := by
  rw [List.takeWhile_append_of_pos (List.all_eq_true.mp all)]
  cases rest with
  | nil => simp
  | cons b bs => simp [ends b rfl]

theorem bare_append_unique {xs ys rest rest' : List UInt8} (hx : isBare xs = true)
    (hy : isBare ys = true) (ends : EndsTerm rest) (ends' : EndsTerm rest')
    (same : xs ++ rest = ys ++ rest') : xs = ys ∧ rest = rest' := by
  have runs := congrArg (List.takeWhile isBareByte) same
  rw [takeWhile_bare hx ends, takeWhile_bare hy ends'] at runs
  subst runs
  exact ⟨rfl, List.append_cancel_left same⟩

/-- What follows a word does not make it longer. A word in quotes ends by itself. -/
def Word.EndsBefore (rest : List UInt8) (w : Word) : Prop := w.isQuoted = false → EndsTerm rest

theorem Word.text_append_unique {v w : Word} {rest rest' : List UInt8} (ends : v.EndsBefore rest)
    (ends' : w.EndsBefore rest') (same : v.text ++ rest = w.text ++ rest') :
    v = w ∧ rest = rest' := by
  cases v with
  | bare bytes nonempty all =>
    cases w with
    | bare bytes' nonempty' all' =>
      obtain ⟨rfl, rfl⟩ := bare_append_unique all all' (ends rfl) (ends' rfl) same
      exact ⟨rfl, rfl⟩
    | quoted => exact absurd same (bare_append_ne nonempty all isBareByte_quote)
  | quoted body nonempty escaped =>
    cases w with
    | bare bytes' nonempty' all' =>
      exact absurd same.symm (bare_append_ne nonempty' all' isBareByte_quote)
    | quoted body' nonempty' escaped' =>
      simp only [Word.text, List.cons_append, List.append_assoc, List.nil_append,
        List.cons.injEq, true_and] at same
      obtain ⟨rfl, rfl⟩ := escaped.append_quote_unique escaped' same
      exact ⟨rfl, rfl⟩

theorem Word.text_append_ne_open (w : Word) (rest more : List UInt8) :
    w.text ++ rest ≠ openByte :: more := by
  cases w with
  | bare bytes nonempty all => exact bare_append_ne nonempty all isBareByte_open
  | quoted =>
    intro equal
    exact open_ne_quote (List.cons.inj equal).1.symm

mutual

/-- The text of an expression is recognized as soon as something follows that ends it. -/
theorem Expression.text_append_unique : ∀ (x y : Expression) {rest rest' : List UInt8},
    EndsExpression rest → EndsExpression rest' → x.text ++ rest = y.text ++ rest' →
      x = y ∧ rest = rest'
  | .single t, .single u, _, _, ends, ends', same => by
    obtain ⟨rfl, rfl⟩ := Term.text_append_unique t u ends.endsTerm ends'.endsTerm same
    exact ⟨rfl, rfl⟩
  | .single t, .group op first others, _, _, ends, _, same => by
    rw [Expression.text, Expression.text, List.append_assoc] at same
    have rests := (Term.text_append_unique t first ends.endsTerm (endsTerm_members _ _ _) same).2
    exact absurd rests (ends.ne_members op others _)
  | .group op first others, .single t, _, _, _, ends', same => by
    rw [Expression.text, Expression.text, List.append_assoc] at same
    have rests := (Term.text_append_unique first t (endsTerm_members _ _ _) ends'.endsTerm same).2
    exact absurd rests.symm (ends'.ne_members op others _)
  | .group op first others, .group op' first' others', _, _, ends, ends', same => by
    rw [Expression.text, Expression.text, List.append_assoc, List.append_assoc] at same
    obtain ⟨rfl, rests⟩ := Term.text_append_unique first first'
      (endsTerm_members _ _ _) (endsTerm_members _ _ _) same
    obtain ⟨rfl, rfl, rfl⟩ := Members.text_append_unique op op' others others' ends ends' rests
    exact ⟨rfl, rfl⟩

theorem Term.text_append_unique : ∀ (t u : Term) {rest rest' : List UInt8},
    EndsTerm rest → EndsTerm rest' → t.text ++ rest = u.text ++ rest' → t = u ∧ rest = rest'
  | .word v, .word w, _, _, ends, ends', same => by
    obtain ⟨rfl, rfl⟩ := Word.text_append_unique (fun _ => ends) (fun _ => ends') same
    exact ⟨rfl, rfl⟩
  | .word w, .enclosed _, _, _, _, _, same => absurd same (w.text_append_ne_open _ _)
  | .enclosed _, .word w, _, _, _, _, same => absurd same.symm (w.text_append_ne_open _ _)
  | .enclosed x, .enclosed y, _, _, _, _, same => by
    simp only [Term.text, List.cons_append, List.append_assoc, List.nil_append,
      List.cons.injEq, true_and] at same
    obtain ⟨rfl, rests⟩ := Expression.text_append_unique x y
      (endsExpression_close _) (endsExpression_close _) same
    exact ⟨rfl, (List.cons.inj rests).2⟩

theorem Members.text_append_unique : ∀ (op op' : Connective) (ms ns : Members)
    {rest rest' : List UInt8}, EndsExpression rest → EndsExpression rest' →
      ms.text op ++ rest = ns.text op' ++ rest' → op = op' ∧ ms = ns ∧ rest = rest'
  | op, op', ms, ns, rest, rest', ends, ends', same => by
    have connective : op = op' := by
      obtain ⟨_, text⟩ := ms.text_eq_cons op
      obtain ⟨_, text'⟩ := ns.text_eq_cons op'
      rw [text, text'] at same
      exact Connective.byte_injective (List.cons.inj same).1
    subst connective
    refine ⟨rfl, ?_⟩
    match ms, ns with
    | .last t, .last u =>
      have tails := (List.cons.inj same).2
      obtain ⟨rfl, rfl⟩ := Term.text_append_unique t u ends.endsTerm ends'.endsTerm tails
      exact ⟨rfl, rfl⟩
    | .last t, .more u others =>
      simp only [Members.text, List.cons_append, List.append_assoc, List.cons.injEq,
        true_and] at same
      have rests := (Term.text_append_unique t u ends.endsTerm (endsTerm_members _ _ _) same).2
      exact absurd rests (ends.ne_members op others _)
    | .more t others, .last u =>
      simp only [Members.text, List.cons_append, List.append_assoc, List.cons.injEq,
        true_and] at same
      have rests := (Term.text_append_unique t u (endsTerm_members _ _ _) ends'.endsTerm same).2
      exact absurd rests.symm (ends'.ne_members op others _)
    | .more t others, .more u others' =>
      simp only [Members.text, List.cons_append, List.append_assoc, List.cons.injEq,
        true_and] at same
      obtain ⟨rfl, rests⟩ := Term.text_append_unique t u
        (endsTerm_members _ _ _) (endsTerm_members _ _ _) same
      obtain ⟨_, rfl, rfl⟩ := Members.text_append_unique op op others others' ends ends' rests
      exact ⟨rfl, rfl⟩

end

/-- What follows a term does not make it longer. A term in parentheses ends by itself. -/
def Term.EndsBefore (rest : List UInt8) : Term → Prop
  | .word w => w.EndsBefore rest
  | .enclosed _ => True

/-- The text of a term is recognized as soon as what follows does not make it longer. -/
theorem Term.text_append_unique_of_endsBefore : ∀ {t u : Term} {rest rest' : List UInt8},
    t.EndsBefore rest → EndsTerm rest' → t.text ++ rest = u.text ++ rest' → t = u ∧ rest = rest'
  | .word v, .word w, _, _, ends, ends', same => by
    obtain ⟨rfl, rfl⟩ := Word.text_append_unique ends (fun _ => ends') same
    exact ⟨rfl, rfl⟩
  | .word w, .enclosed _, _, _, _, _, same => absurd same (w.text_append_ne_open _ _)
  | .enclosed _, .word w, _, _, _, _, same => absurd same.symm (w.text_append_ne_open _ _)
  | .enclosed x, .enclosed y, _, _, _, _, same => by
    simp only [Term.text, List.cons_append, List.append_assoc, List.nil_append,
      List.cons.injEq, true_and] at same
    obtain ⟨rfl, rests⟩ := Expression.text_append_unique x y
      (endsExpression_close _) (endsExpression_close _) same
    exact ⟨rfl, (List.cons.inj rests).2⟩

/-- The grammar is unambiguous. -/
theorem Expression.text_injective {x y : Expression} (same : x.text = y.text) : x = y :=
  (Expression.text_append_unique x y endsExpression_nil endsExpression_nil
    (congrArg (· ++ []) same)).1

/-- Where a byte stands: outside quotes, between them, or between them and behind an escape
mark that keeps it. -/
inductive Place where
  | outside
  | inside
  | kept

/-- How deep parentheses come to nest outside quotes, where `depth` of them are open. -/
def nestingFrom (depth : Nat) : Place → List UInt8 → Nat
  | _, [] => depth
  | .outside, b :: bs =>
    if b = quoteByte then nestingFrom depth .inside bs
    else if b = openByte then nestingFrom (depth + 1) .outside bs
    else if b = closeByte then max depth (nestingFrom (depth - 1) .outside bs)
    else nestingFrom depth .outside bs
  | .inside, b :: bs =>
    if b = quoteByte then nestingFrom depth .outside bs
    else if b = escapeByte then nestingFrom depth .kept bs
    else nestingFrom depth .inside bs
  | .kept, _ :: bs => nestingFrom depth .inside bs

/-- How deep the parentheses of a text nest outside quotes. -/
def nesting (bs : List UInt8) : Nat := nestingFrom 0 .outside bs

theorem le_nestingFrom (bs : List UInt8) : ∀ (depth : Nat) (place : Place),
    depth ≤ nestingFrom depth place bs := by
  induction bs with
  | nil => intro depth place; cases place <;> exact Nat.le_refl _
  | cons b bs ih =>
    intro depth place
    cases place <;> simp only [nestingFrom]
    · have opened := ih (depth + 1) .outside
      have kept := ih depth
      split
      · exact kept _
      split
      · omega
      split
      · exact Nat.le_max_left _ _
      · exact kept _
    · split
      · exact ih _ _
      split <;> exact ih _ _
    · exact ih _ _

theorem nestingFrom_bare (depth : Nat) (rest : List UInt8) : ∀ {bytes : List UInt8},
    isBare bytes = true → nestingFrom depth .outside (bytes ++ rest) =
      nestingFrom depth .outside rest
  | [], _ => rfl
  | b :: bs, all => by
    simp only [isBare, List.all_cons, Bool.and_eq_true] at all
    simp only [List.cons_append, nestingFrom, isBareByte_ne all.1 isBareByte_quote,
      isBareByte_ne all.1 isBareByte_open, isBareByte_ne all.1 isBareByte_close, if_false]
    exact nestingFrom_bare depth rest all.2

theorem nestingFrom_escaped (depth : Nat) (rest : List UInt8) {body : List UInt8}
    (escaped : Escape.Escaped body) : nestingFrom depth .inside (body ++ quoteByte :: rest) =
      nestingFrom depth .outside rest := by
  induction escaped with
  | nil => simp [nestingFrom]
  | plain hx _ ih =>
    obtain ⟨quote, escape⟩ := Escape.isMark_eq_false.mp hx
    simp only [List.cons_append, nestingFrom, show _ ≠ quoteByte from quote,
      show _ ≠ escapeByte from escape, if_false]
    exact ih
  | kept _ _ ih =>
    simp only [List.cons_append, nestingFrom, show (Marked.escape : UInt8) = escapeByte from rfl,
      escape_ne_quote, if_false, if_true]
    exact ih

theorem nestingFrom_word (w : Word) (depth : Nat) (rest : List UInt8) :
    nestingFrom depth .outside (w.text ++ rest) = nestingFrom depth .outside rest := by
  cases w with
  | bare bytes _ all => exact nestingFrom_bare depth rest all
  | quoted body _ escaped =>
    simp only [Word.text, List.cons_append, List.append_assoc, List.nil_append, nestingFrom,
      if_true]
    exact nestingFrom_escaped depth rest escaped

theorem nestingFrom_connective (op : Connective) (depth : Nat) (rest : List UInt8) :
    nestingFrom depth .outside (op.byte :: rest) = nestingFrom depth .outside rest := by
  cases op <;> rfl

mutual

theorem nestingFrom_expression : ∀ (x : Expression) (depth : Nat) (rest : List UInt8),
    nestingFrom depth .outside (x.text ++ rest) =
      max (depth + x.depth) (nestingFrom depth .outside rest)
  | .single t, depth, rest => nestingFrom_term t depth rest
  | .group op first others, depth, rest => by
    rw [Expression.text, List.append_assoc, nestingFrom_term, nestingFrom_members,
      Expression.depth]
    omega

theorem nestingFrom_term : ∀ (t : Term) (depth : Nat) (rest : List UInt8),
    nestingFrom depth .outside (t.text ++ rest) =
      max (depth + t.depth) (nestingFrom depth .outside rest)
  | .word w, depth, rest => by
    have least := le_nestingFrom rest depth .outside
    rw [Term.text, nestingFrom_word, Term.depth]
    omega
  | .enclosed x, depth, rest => by
    have least := le_nestingFrom rest depth .outside
    have closes : nestingFrom (depth + 1) .outside (closeByte :: rest) =
        max (depth + 1) (nestingFrom depth .outside rest) := rfl
    have opens : nestingFrom depth .outside (Term.text (.enclosed x) ++ rest) =
        nestingFrom (depth + 1) .outside (x.text ++ closeByte :: rest) := by
      simp only [Term.text, List.cons_append, List.append_assoc, List.nil_append, nestingFrom,
        open_ne_quote, if_false, if_true]
    rw [opens, nestingFrom_expression, closes, Term.depth]
    omega

theorem nestingFrom_members : ∀ (op : Connective) (ms : Members) (depth : Nat)
    (rest : List UInt8), nestingFrom depth .outside (ms.text op ++ rest) =
      max (depth + ms.depth) (nestingFrom depth .outside rest)
  | op, .last t, depth, rest => by
    rw [Members.text, List.cons_append, nestingFrom_connective, nestingFrom_term, Members.depth]
  | op, .more t others, depth, rest => by
    rw [Members.text, List.cons_append, List.cons_append, List.append_assoc,
      nestingFrom_connective, nestingFrom_term, nestingFrom_members, Members.depth]
    omega

end

/-- Nesting is read off the bytes of an expression as its depth. -/
theorem nesting_text (x : Expression) : nesting x.text = x.depth := by
  have whole := nestingFrom_expression x 0 []
  rw [List.append_nil] at whole
  rw [nesting, whole]
  exact (congrArg (max · 0) (Nat.zero_add _)).trans (Nat.max_zero _)

end Clearance.Grammar
