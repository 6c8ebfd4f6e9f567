import Clearance.Proofs.Grammar

/-! What may follow a text that breaks off where a term is due. Such a text fixes how many
parentheses are open and which connective joins the terms within the innermost of them. It can be
completed with any expression that goes on from there, and whatever completes it begins with one. -/
namespace Clearance.Grammar

/-- Behind `before` a term is due, with `depth` parentheses open. Within the innermost of them
`op?` is the connective behind the last term, if there is one. -/
inductive Awaits (limit : Nat) : Nat → Option Connective → List UInt8 → Prop where
  | start : Awaits limit 0 none []
  | inner {depth : Nat} {op? : Option Connective} {before : List UInt8}
      (outer : Awaits limit depth op? before) (room : depth < limit) :
      Awaits limit (depth + 1) none (before ++ [openByte])
  | next {depth : Nat} {op? : Option Connective} {before : List UInt8}
      (earlier : Awaits limit depth op? before) (t : Term) (within : t.depth + depth ≤ limit)
      (op : Connective) (same : ∀ o ∈ op?, o = op) :
      Awaits limit depth (some op) (before ++ t.text ++ [op.byte])

/-- Expressions that go on with the terms before them: their own connective is no other one. -/
def Expression.Continues (op? : Option Connective) : Expression → Prop
  | .single _ => True
  | .group op _ _ => ∀ o ∈ op?, o = op

theorem Expression.continues_none (x : Expression) : x.Continues none := by
  cases x <;> simp [Continues]

/-- The terms of an expression, as further members of a group. -/
def Expression.members : Expression → Members
  | .single t => .last t
  | .group _ t ms => .more t ms

theorem Expression.depth_members (x : Expression) : x.members.depth = x.depth := by
  cases x <;> rfl

theorem Expression.text_members {op : Connective} {x : Expression}
    (continues : x.Continues (some op)) : x.members.text op = op.byte :: x.text := by
  cases x with
  | single t => rfl
  | group op' t ms =>
    obtain rfl : op = op' := continues op rfl
    rfl

/-- The further members of a group, as an expression of their own. -/
def Members.expression (op : Connective) : Members → Expression
  | .last t => .single t
  | .more t ms => .group op t ms

theorem Members.depth_expression (op : Connective) (ms : Members) :
    (ms.expression op).depth = ms.depth := by
  cases ms <;> rfl

theorem Members.text_expression (op : Connective) (ms : Members) :
    ms.text op = op.byte :: (ms.expression op).text := by
  cases ms <;> rfl

theorem Members.continues_expression (op : Connective) (ms : Members) :
    (ms.expression op).Continues (some op) := by
  cases ms with
  | last t => trivial
  | more t ms =>
    intro o found
    exact (Option.some.inj found).symm

/-- What follows the terms within the innermost parenthesis. -/
def Closes : Nat → List UInt8 → Prop
  | 0, rest => rest = []
  | _ + 1, rest => ∃ more, rest = closeByte :: more

theorem Closes.endsExpression {depth : Nat} {rest : List UInt8} (closes : Closes depth rest) :
    EndsExpression rest := by
  cases depth with
  | zero => exact closes ▸ endsExpression_nil
  | succ depth =>
    obtain ⟨more, rfl⟩ := closes
    exact endsExpression_close more

/-- What stands in the parentheses that an expression begins with is an expression. -/
theorem Expression.exists_inner {x : Expression} {rest tail : List UInt8}
    (split : openByte :: rest = x.text ++ tail) :
    ∃ (inner : Expression) (more : List UInt8), rest = inner.text ++ closeByte :: more ∧
      inner.depth + 1 ≤ x.depth := by
  cases x with
  | single t =>
    cases t with
    | word w => exact absurd split.symm (w.text_append_ne_open _ _)
    | enclosed inner =>
      exact ⟨inner, tail, by simpa [Expression.text, Term.text] using split, Nat.le_refl _⟩
  | group op t ms =>
    rw [Expression.text, List.append_assoc] at split
    cases t with
    | word w => exact absurd split.symm (w.text_append_ne_open _ _)
    | enclosed inner =>
      exact ⟨inner, ms.text op ++ tail, by simpa [Term.text] using split, Nat.le_max_left _ _⟩

/-- Behind a term and a connective an expression goes on with an expression. -/
theorem Expression.exists_continuation {x : Expression} {t : Term} {op : Connective}
    {rest tail : List UInt8} (ends : EndsExpression tail)
    (split : t.text ++ op.byte :: rest = x.text ++ tail) :
    ∃ z : Expression, rest = z.text ++ tail ∧ z.Continues (some op) ∧ z.depth ≤ x.depth := by
  cases x with
  | single u =>
    have rests := (Term.text_append_unique t u (endsTerm_connective op rest) ends.endsTerm split).2
    exact absurd rests.symm (ends.ne_connective op rest)
  | group op' u ms =>
    rw [Expression.text, List.append_assoc] at split
    have rests := (Term.text_append_unique t u (endsTerm_connective op rest)
      (endsTerm_members _ _ _) split).2
    rw [ms.text_expression op', List.cons_append] at rests
    obtain ⟨byte, rests⟩ := List.cons.inj rests
    obtain rfl := Connective.byte_injective byte
    refine ⟨ms.expression op, rests, ms.continues_expression op, ?_⟩
    rw [ms.depth_expression op]
    exact Nat.le_max_right _ _

namespace Awaits

variable {limit depth : Nat} {op? : Option Connective} {before : List UInt8}

theorem depth_le (awaits : Awaits limit depth op? before) : depth ≤ limit := by
  induction awaits with
  | start => exact Nat.zero_le _
  | inner _ room _ => exact room
  | next _ _ _ _ _ ih => exact ih

theorem mono {limit' : Nat} (le : limit ≤ limit') (awaits : Awaits limit depth op? before) :
    Awaits limit' depth op? before := by
  induction awaits with
  | start => exact .start
  | inner _ room ih => exact .inner ih (Nat.lt_of_lt_of_le room le)
  | next _ t within op same ih => exact .next ih t (Nat.le_trans within le) op same

/-- An expression that goes on from here can be completed: what is open has only to be closed. -/
theorem complete (awaits : Awaits limit depth op? before) : ∀ x : Expression,
    x.Continues op? → x.depth + depth ≤ limit →
      ∃ (y : Expression) (more : List UInt8), y.text = before ++ (x.text ++ more) ∧
        y.depth ≤ limit := by
  -- From the innermost parenthesis outwards: what is completed there is a term further out.
  induction awaits with
  | start => exact fun x _ within => ⟨x, [], (List.append_nil _).symm, within⟩
  | @inner depth _ before _ _ ih =>
    intro x _ within
    have deep : (Expression.single (.enclosed x)).depth + depth ≤ limit := by
      simp only [Expression.depth, Term.depth]
      omega
    obtain ⟨y, more, text, shallow⟩ := ih (.single (.enclosed x)) trivial deep
    refine ⟨y, closeByte :: more, ?_, shallow⟩
    rw [text]
    simp [Expression.text, Term.text]
  | @next depth _ before _ t within op same ih =>
    intro x continues deep
    have deepest : (Expression.group op t x.members).depth + depth ≤ limit := by
      rw [Expression.depth, x.depth_members]
      omega
    obtain ⟨y, more, text, shallow⟩ := ih (.group op t x.members) same deepest
    refine ⟨y, more, ?_, shallow⟩
    rw [text, Expression.text, Expression.text_members continues]
    simp

/-- Whatever completes a text that awaits a term begins with an expression that goes on from there,
followed by what closes it. -/
theorem resume (awaits : Awaits limit depth op? before) : ∀ {y : Expression} {rest : List UInt8},
    y.text = before ++ rest → y.depth ≤ limit →
      ∃ (x : Expression) (tail : List UInt8), rest = x.text ++ tail ∧ Closes depth tail ∧
        x.Continues op? ∧ x.depth + depth ≤ limit := by
  -- A completion of `before` completes every part of it, so the outer part is resumed first, and
  -- what it is resumed with begins with the parenthesis or the term that stands in `before`.
  induction awaits with
  | start =>
    intro y rest text within
    refine ⟨y, [], ?_, rfl, y.continues_none, within⟩
    rw [text, List.nil_append, List.append_nil]
  | inner _ _ ih =>
    intro y rest text within
    rw [List.append_assoc] at text
    obtain ⟨x, tail, split, _, _, deep⟩ := ih text within
    obtain ⟨inner, more, split, lower⟩ := Expression.exists_inner split
    exact ⟨inner, closeByte :: more, split, ⟨more, rfl⟩, inner.continues_none, by omega⟩
  | next _ t _ op _ ih =>
    intro y rest text within
    rw [List.append_assoc, List.append_assoc] at text
    obtain ⟨x, tail, split, closes, _, deep⟩ := ih text within
    obtain ⟨z, split, continues, lower⟩ :=
      Expression.exists_continuation closes.endsExpression split
    exact ⟨z, tail, split, closes, continues, by omega⟩

/-- Whatever completes a text that awaits a term begins with one. -/
theorem exists_term (awaits : Awaits limit depth op? before) {y : Expression} {rest : List UInt8}
    (text : y.text = before ++ rest) (within : y.depth ≤ limit) :
    ∃ (t : Term) (tail : List UInt8), rest = t.text ++ tail ∧ t.depth + depth ≤ limit := by
  obtain ⟨x, tail, rfl, _, _, deep⟩ := awaits.resume text within
  cases x with
  | single t => exact ⟨t, tail, rfl, deep⟩
  | group op t ms =>
    refine ⟨t, ms.text op ++ tail, List.append_assoc _ _ _, ?_⟩
    rw [Expression.depth] at deep
    omega

/-- A term begins with a parenthesis for which there is room, with a quote or with a bare byte. -/
theorem first (awaits : Awaits limit depth op? before) {y : Expression} {b : UInt8}
    {rest : List UInt8} (text : y.text = before ++ b :: rest) (within : y.depth ≤ limit) :
    b = openByte ∧ depth < limit ∨ b = quoteByte ∨ isBareByte b = true := by
  obtain ⟨t, tail, split, deep⟩ := awaits.exists_term text within
  match t with
  | .enclosed x =>
    refine Or.inl ⟨(List.cons.inj split).1, ?_⟩
    rw [Term.depth] at deep
    omega
  | .word (.quoted body _ _) => exact Or.inr (Or.inl (List.cons.inj split).1)
  | .word (.bare (a :: as) _ all) =>
    simp only [isBare, List.all_cons, Bool.and_eq_true] at all
    exact Or.inr (Or.inr ((List.cons.inj split).1 ▸ all.1))

/-- Behind a quote stands a body, and a quote behind it. -/
theorem quoted (awaits : Awaits limit depth op? before) {y : Expression} {rest : List UInt8}
    (text : y.text = before ++ quoteByte :: rest) (within : y.depth ≤ limit) :
    ∃ body tail : List UInt8, rest = body ++ quoteByte :: tail ∧ body ≠ [] ∧
      Escape.Escaped body := by
  obtain ⟨t, tail, split, _⟩ := awaits.exists_term text within
  match t with
  | .enclosed x => exact absurd (List.cons.inj split).1.symm open_ne_quote
  | .word (.bare bytes nonempty all) =>
    exact absurd split.symm (bare_append_ne nonempty all isBareByte_quote)
  | .word (.quoted body nonempty escaped) =>
    refine ⟨body, tail, ?_, nonempty, escaped⟩
    simpa [Term.text, Word.text] using split

/-- Behind a term that was awaited stands what closes the expression, or the connective of the
terms before. -/
theorem behind (awaits : Awaits limit depth op? before) {y : Expression} {t : Term} {b : UInt8}
    {rest : List UInt8} (text : y.text = before ++ (t.text ++ b :: rest)) (within : y.depth ≤ limit)
    (ends : t.EndsBefore (b :: rest)) :
    b = closeByte ∧ 0 < depth ∨ ∃ op : Connective, b = op.byte ∧ ∀ o ∈ op?, o = op := by
  obtain ⟨x, tail, split, closes, continues, _⟩ := awaits.resume text within
  cases x with
  | single u =>
    obtain ⟨_, rfl⟩ :=
      Term.text_append_unique_of_endsBefore ends closes.endsExpression.endsTerm split
    cases depth with
    | zero => cases closes
    | succ depth =>
      obtain ⟨more, same⟩ := closes
      exact Or.inl ⟨(List.cons.inj same).1, Nat.succ_pos depth⟩
  | group op u ms =>
    rw [Expression.text, List.append_assoc] at split
    have rests := (Term.text_append_unique_of_endsBefore ends (endsTerm_members _ _ _) split).2
    rw [ms.text_expression op, List.cons_append] at rests
    exact Or.inr ⟨op, (List.cons.inj rests).1, continues⟩

end Awaits

end Clearance.Grammar
