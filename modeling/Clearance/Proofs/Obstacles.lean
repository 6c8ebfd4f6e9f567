import Clearance.Proofs.Completion
import Clearance.Proofs.Scanning

/-! Where a reading stands, said of the label before it, and what stops a reading there. A term is
due, or one that was due has ended, and the next bytes are none that could follow. -/
namespace Clearance

variable {label : List UInt8} {op? : Option Connective} {c : Cursor label}

namespace Cursor

/-- Behind a text the label before the cursor is longer by that text. -/
theorem take_advance {text : List UInt8} (starts : text <+: c.rest) :
    label.take (c.advance text.length).offset = label.take c.offset ++ text := by
  rw [offset_advance, List.take_add, ← c.rest_eq, ← List.prefix_iff_eq_take.mp starts]

theorem advance_within {text : List UInt8} (starts : text <+: c.rest)
    (within : c.offset ≤ label.length) : (c.advance text.length).offset ≤ label.length := by
  have longer := starts.length_le
  rw [c.rest_eq, List.length_drop] at longer
  rw [offset_advance]
  omega

theorem singleton_prefix {b : UInt8} (next : c.peek = some b) : [b] <+: c.rest := by
  obtain ⟨bs, start⟩ := peek_eq_some next
  exact ⟨bs, start.symm⟩

end Cursor

open Grammar

/-- A term is due at the cursor. -/
structure Due (limit depth : Nat) (op? : Option Connective) (c : Cursor label) : Prop where
  within : c.offset ≤ label.length
  awaits : Awaits limit depth op? (label.take c.offset)

/-- A term that was due has ended at the cursor. -/
structure Done (limit depth : Nat) (op? : Option Connective) (c : Cursor label) : Prop where
  within : c.offset ≤ label.length
  ended : ∃ (before : List UInt8) (t : Term), label.take c.offset = before ++ t.text ∧
    Awaits limit depth op? before ∧ t.depth + depth ≤ limit ∧ t.EndsBefore c.rest

section

variable {limit depth : Nat}

theorem due_start (limit : Nat) (label : List UInt8) : Due limit 0 none (Cursor.start label) :=
  ⟨Nat.zero_le _, .start⟩

theorem Due.done {t : Term} (due : Due limit depth op? c) (starts : t.text <+: c.rest)
    (deep : t.depth + depth ≤ limit) (ends : t.EndsBefore (c.advance t.text.length).rest) :
    Done limit depth op? (c.advance t.text.length) :=
  ⟨Cursor.advance_within starts due.within, label.take c.offset, t, Cursor.take_advance starts,
    due.awaits, deep, ends⟩

theorem Due.inner (due : Due limit depth op? c) (opens : c.peek = some openByte)
    (room : depth < limit) : Due limit (depth + 1) none (c.advance 1) := by
  have starts := Cursor.singleton_prefix opens
  refine ⟨Cursor.advance_within starts due.within, ?_⟩
  rw [show label.take (c.advance 1).offset = _ from Cursor.take_advance starts]
  exact .inner due.awaits room

theorem Done.next {op : Connective} (done : Done limit depth op? c) (same : ∀ o ∈ op?, o = op)
    (more : c.peek = some op.byte) : Due limit depth (some op) (c.advance 1) := by
  obtain ⟨within, before, t, split, awaits, deep, _⟩ := done
  have starts := Cursor.singleton_prefix more
  refine ⟨Cursor.advance_within starts within, ?_⟩
  rw [show label.take (c.advance 1).offset = _ from Cursor.take_advance starts, split]
  exact .next awaits t deep op same

end

/-- What stops a reading that allows `limit` parentheses to be open, and the fault that says so. -/
inductive Obstacle (limit : UInt32) (label : List UInt8) : Fault → Prop where
  | tooDeep {c : Cursor label} {op? : Option Connective}
      (due : Due limit.toNat limit.toNat op? c) (opens : c.peek = some openByte) :
      Obstacle limit label (.tooDeep limit (Text.Utf8.decodeLossy label) c.offset)
  | noTerm {c : Cursor label} {depth : Nat} {op? : Option Connective}
      (due : Due limit.toNat depth op? c)
      (none : ∀ b, c.peek = some b → b ≠ openByte ∧ b ≠ quoteByte ∧ isBareByte b = false) :
      Obstacle limit label (c.fault (.noTerm c.seen))
  | unclosedQuote {c : Cursor label} {depth : Nat} {op? : Option Connective} {body : List UInt8}
      (due : Due limit.toNat depth op? c) (quoted : c.rest = quoteByte :: body)
      (escaped : Escape.Escaped body) : Obstacle limit label (c.fault .unclosedQuote)
  | emptyQuotes {c : Cursor label} {depth : Nat} {op? : Option Connective} {rest : List UInt8}
      (due : Due limit.toNat depth op? c) (quoted : c.rest = quoteByte :: quoteByte :: rest) :
      Obstacle limit label (c.fault .emptyQuotes)
  | looseEscape {c : Cursor label} {depth : Nat} {op? : Option Connective}
      {body rest : List UInt8} (due : Due limit.toNat depth op? c)
      (quoted : c.rest = quoteByte :: body ++ escapeByte :: rest) (escaped : Escape.Escaped body)
      (unkept : ∀ e, rest.head? = some e → Escape.isMark e = false) :
      Obstacle limit label ((c.advance (quoteByte :: body).length).fault .looseEscape)
  | mixed {c : Cursor label} {depth : Nat} {op : Connective}
      (done : Done limit.toNat depth (some op) c) (other : c.peek = some op.other.byte) :
      Obstacle limit label (c.fault .mixedConnectives)
  | unclosed {c : Cursor label} {depth : Nat} {op? : Option Connective}
      (done : Done limit.toNat (depth + 1) op? c) (alone : c.connective? = none)
      (other : c.peek ≠ some closeByte) :
      Obstacle limit label (c.fault (.unexpected closeByte c.seen))
  | leftOver {c : Cursor label} {op? : Option Connective} (done : Done limit.toNat 0 op? c)
      (alone : c.connective? = none) (more : c.atEnd = false) :
      Obstacle limit label (c.fault (.leftOver c.char))

/-- Why no token can be read at a cursor that stands outside parentheses, and the fault that says
so. -/
inductive NoToken (c : Cursor label) : Fault → Prop where
  | noTerm (none : ∀ b, c.peek = some b → b ≠ openByte ∧ b ≠ quoteByte ∧ isBareByte b = false) :
      NoToken c (c.fault (.noTerm c.seen))
  | unclosedQuote {body : List UInt8} (quoted : c.rest = quoteByte :: body)
      (escaped : Escape.Escaped body) : NoToken c (c.fault .unclosedQuote)
  | emptyQuotes {rest : List UInt8} (quoted : c.rest = quoteByte :: quoteByte :: rest) :
      NoToken c (c.fault .emptyQuotes)
  | looseEscape {body rest : List UInt8} (quoted : c.rest = quoteByte :: body ++ escapeByte :: rest)
      (escaped : Escape.Escaped body) (unkept : ∀ e, rest.head? = some e → Escape.isMark e = false) :
      NoToken c ((c.advance (quoteByte :: body).length).fault .looseEscape)

namespace NoToken

variable {fault : Fault} {stop : Cursor label}

theorem of_quoted (opens : c.peek = some quoteByte) (failed : c.quoted = (.error fault, stop)) :
    NoToken c fault := by
  obtain ⟨bs, start⟩ := Cursor.peek_eq_some opens
  have inner : (c.advance 1).rest = bs := by
    rw [Cursor.rest_advance, start]
    rfl
  unfold Cursor.quoted at failed
  simp only [inner] at failed
  split at failed
  next unclosed =>
    cases failed
    exact .unclosedQuote start (Cursor.scanBody_unclosed unclosed)
  next loose =>
    obtain ⟨escaped, rest, split, unkept⟩ := Cursor.scanBody_looseEscape loose
    cases failed
    rw [Cursor.advance_advance, Nat.add_comm]
    exact .looseEscape (start.trans (congrArg _ split)) escaped unkept
  next closed =>
    -- A quoted token that ends can only be empty.
    split at failed
    next empty =>
      obtain ⟨_, rest, split⟩ := Cursor.scanBody_sound closed
      cases failed
      rw [List.isEmpty_iff.mp empty] at split
      exact .emptyQuotes (start.trans (congrArg _ split))
    next => cases failed

theorem of_token (outside : c.peek ≠ some openByte) (failed : c.token = (.error fault, stop)) :
    NoToken c fault := by
  unfold Cursor.token at failed
  split at failed
  next ended =>
    have seen : c.seen = none := by
      rw [Cursor.seen, Cursor.atEnd, List.isEmpty_iff.mpr (List.head?_eq_none_iff.mp ended)]
      rfl
    cases failed
    rw [← seen]
    exact .noTerm fun b found => absurd (ended.symm.trans found) nofun
  next b next =>
    split at failed
    next quote => exact of_quoted (quote ▸ next) failed
    next noQuote =>
      split at failed
      next => cases failed
      next noBare =>
        obtain ⟨bs, start⟩ := Cursor.peek_eq_some next
        have seen : c.seen = some c.char := by
          rw [Cursor.seen, Cursor.atEnd, start]
          rfl
        cases failed
        rw [← seen]
        refine .noTerm fun b' found => ?_
        cases next.symm.trans found
        exact ⟨fun opens => outside (opens ▸ next), noQuote, Bool.not_eq_true _ ▸ noBare⟩

end NoToken

/-- Where a term is due and no token can be read, that is what stops the reading. -/
theorem NoToken.obstacle {limit : UInt32} {depth : Nat} {fault : Fault}
    (due : Due limit.toNat depth op? c) (noToken : NoToken c fault) :
    Obstacle limit label fault := by
  cases noToken with
  | noTerm none => exact .noTerm due none
  | unclosedQuote quoted escaped => exact .unclosedQuote due quoted escaped
  | emptyQuotes quoted => exact .emptyQuotes due quoted
  | looseEscape quoted escaped unkept => exact .looseEscape due quoted escaped unkept

end Clearance
