import Clearance.Proofs.Completion

/-! How things stand behind a text that may break off anywhere, said of its bytes without the
grammar: how many parentheses are open outside quotes, and whether a quote is open. -/
namespace Clearance.Grammar

/-- How many parentheses are open outside quotes, and where the next byte stands. -/
structure Standing where
  depth : Nat
  place : Place

namespace Standing

/-- How things stand behind one more byte. -/
def step : Standing → UInt8 → Standing
  | ⟨depth, .outside⟩, b =>
    if b = quoteByte then ⟨depth, .inside⟩
    else if b = openByte then ⟨depth + 1, .outside⟩
    else if b = closeByte then ⟨depth - 1, .outside⟩
    else ⟨depth, .outside⟩
  | ⟨depth, .inside⟩, b =>
    if b = quoteByte then ⟨depth, .outside⟩
    else if b = escapeByte then ⟨depth, .kept⟩
    else ⟨depth, .inside⟩
  | ⟨depth, .kept⟩, _ => ⟨depth, .inside⟩

/-- How things stand behind further bytes. -/
def run (start : Standing) (bs : List UInt8) : Standing := bs.foldl step start

theorem run_cons (start : Standing) (b : UInt8) (bs : List UInt8) :
    start.run (b :: bs) = (start.step b).run bs := rfl

theorem run_append (start : Standing) (bs cs : List UInt8) :
    start.run (bs ++ cs) = (start.run bs).run cs := List.foldl_append

variable {depth : Nat}

theorem step_quote : step ⟨depth, .outside⟩ quoteByte = ⟨depth, .inside⟩ := rfl

theorem step_open : step ⟨depth, .outside⟩ openByte = ⟨depth + 1, .outside⟩ := rfl

theorem step_connective (op : Connective) :
    step ⟨depth, .outside⟩ op.byte = ⟨depth, .outside⟩ := by
  cases op <;> rfl

theorem step_bare {b : UInt8} (bare : isBareByte b = true) :
    step ⟨depth, .outside⟩ b = ⟨depth, .outside⟩ := by
  simp only [step, isBareByte_ne bare isBareByte_quote, isBareByte_ne bare isBareByte_open,
    isBareByte_ne bare isBareByte_close, if_false]

theorem step_plain {b : UInt8} (plain : Escape.isMark b = false) :
    step ⟨depth, .inside⟩ b = ⟨depth, .inside⟩ := by
  obtain ⟨quote, escape⟩ := Escape.isMark_eq_false.mp plain
  simp only [step, show b ≠ quoteByte from quote, show b ≠ escapeByte from escape, if_false]

theorem run_bare {bytes : List UInt8} (all : isBare bytes = true) :
    run ⟨depth, .outside⟩ bytes = ⟨depth, .outside⟩ := by
  induction bytes with
  | nil => rfl
  | cons b bs ih =>
    simp only [isBare, List.all_cons, Bool.and_eq_true] at all
    rw [run_cons, step_bare all.1]
    exact ih all.2

theorem run_escaped {body : List UInt8} (escaped : Escape.Escaped body) :
    run ⟨depth, .inside⟩ body = ⟨depth, .inside⟩ := by
  induction escaped with
  | nil => rfl
  | plain plain _ ih => rwa [run_cons, step_plain plain]
  | kept _ _ ih => exact ih

/-- Within an escaped body a quote stays open. -/
theorem place_run_take_escaped {body : List UInt8} (escaped : Escape.Escaped body) :
    ∀ n, (run ⟨depth, .inside⟩ (body.take n)).place ≠ .outside := by
  induction escaped with
  | nil =>
    intro n
    rw [List.take_nil]
    exact nofun
  | plain plain _ ih =>
    intro n
    cases n with
    | zero => exact nofun
    | succ n =>
      rw [List.take_succ_cons, run_cons, step_plain plain]
      exact ih n
  | kept _ _ ih =>
    intro n
    match n with
    | 0 | 1 => exact nofun
    | n + 2 => exact ih n

theorem run_word (w : Word) : run ⟨depth, .outside⟩ w.text = ⟨depth, .outside⟩ := by
  cases w with
  | bare bytes _ all => exact run_bare all
  | quoted body _ escaped =>
    rw [Word.text, List.cons_append, run_cons, step_quote, run_append, run_escaped escaped]
    rfl

mutual

/-- Behind an expression all is closed that was opened in it. -/
theorem run_expression : ∀ (x : Expression) (depth : Nat),
    run ⟨depth, .outside⟩ x.text = ⟨depth, .outside⟩
  | .single t, depth => run_term t depth
  | .group op first others, depth => by
    rw [Expression.text, run_append, run_term, run_members]

theorem run_term : ∀ (t : Term) (depth : Nat),
    run ⟨depth, .outside⟩ t.text = ⟨depth, .outside⟩
  | .word w, depth => run_word w
  | .enclosed x, depth => by
    rw [Term.text, List.cons_append, run_cons, step_open, run_append, run_expression]
    rfl

theorem run_members : ∀ (op : Connective) (ms : Members) (depth : Nat),
    run ⟨depth, .outside⟩ (ms.text op) = ⟨depth, .outside⟩
  | op, .last t, depth => by
    rw [Members.text, run_cons, step_connective, run_term]
  | op, .more t others, depth => by
    rw [Members.text, List.cons_append, run_cons, step_connective, run_append, run_term,
      run_members]

end

end Standing

/-- How things stand behind a text. -/
def standing (bs : List UInt8) : Standing := Standing.run ⟨0, .outside⟩ bs

theorem standing_append (bs cs : List UInt8) : standing (bs ++ cs) = (standing bs).run cs :=
  Standing.run_append _ bs cs

/-- Where a term is due, no quote is open, and the open parentheses are counted. -/
theorem Awaits.standing_eq {limit depth : Nat} {op? : Option Connective} {before : List UInt8}
    (awaits : Awaits limit depth op? before) : standing before = ⟨depth, .outside⟩ := by
  induction awaits with
  | start => rfl
  | inner _ _ ih =>
    rw [standing_append, ih]
    rfl
  | next _ t _ op _ ih =>
    rw [standing_append, standing_append, ih, Standing.run_term]
    exact Standing.step_connective op

end Clearance.Grammar
