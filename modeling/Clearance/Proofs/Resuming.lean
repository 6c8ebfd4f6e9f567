import Clearance.Proofs.Obstacles
import Clearance.Proofs.Replay

/-! Derivations that break off, completed. A term in the place of what is missing makes a whole
derivation, and with the right term its text goes on from as much of the label as could have become
an expression. -/
namespace Clearance

variable {label : List UInt8} {limit depth : Nat} {op? : Option Connective} {c : Cursor label}

/-- How much of the label could have become an expression, where a reading stops with this fault. -/
def Fault.reach (label : List UInt8) : Fault → Nat
  | .malformed .unclosedQuote _ _ => label.length
  | .malformed .emptyQuotes _ offset | .malformed .looseEscape _ offset => offset + 1
  | .malformed _ _ offset | .tooDeep _ _ offset => offset
  | .refused _ | .misuse _ => 0

open Grammar

theorem Due.depth_word (due : Due limit depth op? c) (w : Word) :
    (Term.word w).depth + depth ≤ limit := by
  rw [Term.depth, Nat.zero_add]
  exact due.awaits.depth_le

namespace Grammar

mutual

/-- The expression with a term where something is missing. What stands there already is closed. -/
def BrokenExpression.completed (missing : Term) : BrokenExpression → Expression
  | .first t => .single (t.completed missing)
  | .group op first others => .group op first (others.completed missing)

def BrokenTerm.completed (missing : Term) : BrokenTerm → Term
  | .absent _ => missing
  | .within x => .enclosed (x.completed missing)
  | .unclosed x _ => .enclosed x

def BrokenMembers.completed (missing : Term) : BrokenMembers → Members
  | .here t => .last (t.completed missing)
  | .mixed t _ => .last t
  | .later t others => .more t (others.completed missing)

end

variable {op : Connective} {t : Term} {x : Expression}

/-- Behind the label up to `c` a text goes on with all that could have become an expression where
the reading stops with `fault`. -/
def Resumes (c : Cursor label) (fault : Fault) (text : List UInt8) : Prop :=
  label.take (fault.reach label) <+: label.take c.offset ++ text

theorem Resumes.append {fault : Fault} {text : List UInt8} (resumes : Resumes c fault text)
    (more : List UInt8) : Resumes c fault (text ++ more) := by
  rw [Resumes, ← List.append_assoc]
  exact resumes.trans (List.prefix_append _ more)

/-- What goes on behind a text goes on with it. -/
theorem Resumes.behind {fault : Fault} {before text : List UInt8} (starts : before <+: c.rest)
    (resumes : Resumes (c.advance before.length) fault text) :
    Resumes c fault (before ++ text) := by
  rw [Resumes, Cursor.take_advance starts, List.append_assoc] at resumes
  exact resumes

/-- Where all of a text stands and the label could have become an expression just so far. -/
theorem Resumes.here {fault : Fault} {text : List UInt8} (starts : text <+: c.rest)
    (place : fault.reach label = (c.advance text.length).offset) : Resumes c fault text := by
  have reached := Cursor.take_advance starts
  rw [← place] at reached
  exact ⟨[], by rw [List.append_nil, reached]⟩

/-- From `c` on, with `depth` parentheses open, the expression can be completed with some term. -/
def BrokenExpression.Resumes (limit depth : Nat) (c : Cursor label) (b : BrokenExpression) : Prop :=
  ∃ missing : Term, (b.completed missing).depth + depth ≤ limit ∧
    Grammar.Resumes c b.fault (b.completed missing).text

def BrokenTerm.Resumes (limit depth : Nat) (c : Cursor label) (b : BrokenTerm) : Prop :=
  ∃ missing : Term, (b.completed missing).depth + depth ≤ limit ∧
    Grammar.Resumes c b.fault (b.completed missing).text

def BrokenMembers.Resumes (limit depth : Nat) (op : Connective) (c : Cursor label)
    (b : BrokenMembers) : Prop :=
  ∃ missing : Term, (b.completed missing).depth + depth ≤ limit ∧
    Grammar.Resumes c b.fault ((b.completed missing).text op)

/-- Some word. -/
def Word.plain : Word := .bare [0x41] (by decide) (by decide)

/-- Where nothing of a term has been read, any term may stand. -/
theorem resumes_absent (due : Due limit depth op? c) {fault : Fault}
    (here : fault.reach label = c.offset) : (BrokenTerm.absent fault).Resumes limit depth c := by
  refine ⟨.word .plain, due.depth_word _, ?_⟩
  rw [BrokenTerm.fault, Grammar.Resumes, here]
  exact List.prefix_append _ _

namespace BrokenTerm.Resumes

theorem within {b : BrokenExpression} (opens : c.peek = some openByte)
    (inner : b.Resumes limit (depth + 1) (c.advance 1)) :
    (BrokenTerm.within b).Resumes limit depth c := by
  obtain ⟨missing, deep, resumes⟩ := inner
  have opened : Grammar.Resumes c b.fault ([openByte] ++ (b.completed missing).text) :=
    .behind (Cursor.singleton_prefix opens) resumes
  refine ⟨missing, ?_, opened.append [closeByte]⟩
  rw [completed, Term.depth]
  omega

theorem unclosed {fault : Fault} (opens : c.peek = some openByte)
    (starts : x.text <+: (c.advance 1).rest) (deep : x.depth + (depth + 1) ≤ limit)
    (place : fault.reach label = ((c.advance 1).advance x.text.length).offset) :
    (BrokenTerm.unclosed x fault).Resumes limit depth c := by
  have opened : Grammar.Resumes c fault ([openByte] ++ x.text) :=
    .behind (Cursor.singleton_prefix opens) (.here starts place)
  refine ⟨.word .plain, ?_, opened.append [closeByte]⟩
  rw [completed, Term.depth]
  omega

end BrokenTerm.Resumes

theorem BrokenExpression.Resumes.group {b : BrokenMembers} (starts : t.text <+: c.rest)
    (deep : t.depth + depth ≤ limit) (others : b.Resumes limit depth op (c.advance t.text.length)) :
    (BrokenExpression.group op t b).Resumes limit depth c := by
  obtain ⟨missing, deepMembers, resumes⟩ := others
  refine ⟨missing, ?_, resumes.behind starts⟩
  rw [completed, Expression.depth]
  omega

namespace BrokenMembers.Resumes

theorem here {b : BrokenTerm} (opens : c.peek = some op.byte)
    (member : b.Resumes limit depth (c.advance 1)) :
    (BrokenMembers.here b).Resumes limit depth op c := by
  obtain ⟨missing, deep, resumes⟩ := member
  exact ⟨missing, deep, resumes.behind (Cursor.singleton_prefix opens)⟩

theorem mixed {fault : Fault} (starts : (Members.last t).text op <+: c.rest)
    (deep : t.depth + depth ≤ limit)
    (place : fault.reach label = (c.advance ((Members.last t).text op).length).offset) :
    (BrokenMembers.mixed t fault).Resumes limit depth op c :=
  ⟨.word .plain, deep, .here starts place⟩

theorem later {b : BrokenMembers} (starts : (Members.last t).text op <+: c.rest)
    (deep : t.depth + depth ≤ limit)
    (others : b.Resumes limit depth op (c.advance ((Members.last t).text op).length)) :
    (BrokenMembers.later t b).Resumes limit depth op c := by
  obtain ⟨missing, deepMembers, resumes⟩ := others
  refine ⟨missing, ?_, resumes.behind starts⟩
  rw [completed, Members.depth]
  omega

end BrokenMembers.Resumes

end Grammar

/-- Where no token can be read, a word can stand, and behind a quote one that begins as the label
does there. -/
theorem NoToken.resumes (due : Due limit depth op? c) {fault : Fault}
    (noToken : NoToken c fault) : (BrokenTerm.absent fault).Resumes limit depth c := by
  have quoted (body more : List UInt8) (nonempty : body ++ more ≠ [])
      (escaped : Escape.Escaped (body ++ more))
      (reach : label.take (fault.reach label) = label.take c.offset ++ quoteByte :: body) :
      (BrokenTerm.absent fault).Resumes limit depth c := by
    refine ⟨.word (.quoted _ nonempty escaped), due.depth_word _, ?_⟩
    rw [BrokenTerm.fault, Grammar.Resumes, reach]
    refine (List.prefix_append_right_inj _).mpr ⟨more ++ [quoteByte], ?_⟩
    simp [BrokenTerm.completed, Term.text, Word.text]
  cases noToken with
  | noTerm none => exact resumes_absent due rfl
  | @unclosedQuote body start escaped =>
    refine quoted body [0x41] (by simp) (escaped.append (.plain (by decide) .nil)) ?_
    show label.take label.length = _
    rw [List.take_length, ← start, c.rest_eq, List.take_append_drop]
  | @emptyQuotes rest start =>
    refine quoted [] [0x41] (by simp) (.plain (by decide) .nil) ?_
    exact Cursor.take_advance (Cursor.singleton_prefix (Cursor.peek_eq start))
  | @looseEscape body rest start escaped _ =>
    refine quoted (body ++ [escapeByte]) [quoteByte] (by simp) ?_ ?_
    · rw [List.append_assoc]
      exact escaped.append (.kept (by decide) .nil)
    · have behind := Cursor.rest_advance_append start
      have upToBody : label.take _ = _ := Cursor.take_advance ⟨_, start.symm⟩
      have loose : label.take _ = _ :=
        Cursor.take_advance (Cursor.singleton_prefix (Cursor.peek_eq behind))
      exact loose.trans (by rw [upToBody, List.append_assoc]; rfl)

end Clearance
