import Mathlib.Order.Bounds.Defs
import Clearance.Proofs.Acceptance
import Clearance.Proofs.Standing

/-! How far a label that is not read could still have become an expression. The fault of a reading
names the end of the longest such part, or, within quotes, what was begun before it. -/
namespace Clearance

namespace Grammar

variable {limit limit' depth : Nat} {op? : Option Connective} {text before : List UInt8}

/-- The beginnings of expressions that nest at most `limit` deep. -/
def Viable (limit : Nat) (text : List UInt8) : Prop :=
  ∃ rest, IsExpression (text ++ rest) ∧ nesting (text ++ rest) ≤ limit

theorem viable_iff : Viable limit text ↔
    ∃ (y : Expression) (rest : List UInt8), y.text = text ++ rest ∧ y.depth ≤ limit := by
  constructor
  · rintro ⟨rest, ⟨y, whole⟩, within⟩
    exact ⟨y, rest, whole, by rwa [← whole, nesting_text] at within⟩
  · rintro ⟨y, rest, whole, within⟩
    exact ⟨rest, ⟨y, whole⟩, by rwa [← whole, nesting_text]⟩

theorem Viable.of_prefix {longer : List UInt8} (starts : text <+: longer)
    (viable : Viable limit longer) : Viable limit text := by
  obtain ⟨more, rfl⟩ := starts
  obtain ⟨rest, derivable, within⟩ := viable
  rw [List.append_assoc] at derivable within
  exact ⟨more ++ rest, derivable, within⟩

/-- Some expression without parentheses. -/
def Expression.plain : Expression := .single (.word .plain)

/-- What begins an expression that goes on from here. -/
theorem Awaits.viable (awaits : Awaits limit depth op? before) (x : Expression)
    (continues : x.Continues op?) (deep : x.depth + depth ≤ limit) (starts : text <+: x.text) :
    Viable limit (before ++ text) := by
  obtain ⟨y, more, whole, within⟩ := awaits.complete x continues deep
  obtain ⟨rest, split⟩ := starts
  refine viable_iff.mpr ⟨y, rest ++ more, ?_, within⟩
  rw [whole, ← split, List.append_assoc, List.append_assoc]

/-- Behind a quote stands any escaped body, or a part of one. -/
theorem Awaits.viable_quoted (awaits : Awaits limit depth op? before) (body more : List UInt8)
    (nonempty : body ++ more ≠ []) (escaped : Escape.Escaped (body ++ more)) :
    Viable limit (before ++ (quoteByte :: body)) := by
  refine awaits.viable (.single (.word (.quoted _ nonempty escaped))) trivial ?_
    ⟨more ++ [quoteByte], by simp [Expression.text, Term.text, Word.text]⟩
  simpa [Expression.depth, Term.depth] using awaits.depth_le

theorem Term.EndsBefore.of_head {t : Term} {rest rest' : List UInt8} (ends : t.EndsBefore rest)
    (same : rest.head? = rest'.head?) : t.EndsBefore rest' := by
  cases t with
  | word w =>
    intro bare b found
    exact ends bare b (same.trans found)
  | enclosed x => trivial

end Grammar

open Grammar

section

variable {label : List UInt8} {limit limit' depth : Nat} {op? : Option Connective}
  {c : Cursor label}

/-- `p` is where the longest part of the label ends that an expression could begin with. -/
def Frontier (limit : Nat) (label : List UInt8) (p : Nat) : Prop :=
  IsGreatest {n | n ≤ label.length ∧ Viable limit (label.take n)} p

/-- One byte more is too much, so any longer part is. -/
theorem frontier_of_stuck {p : Nat} (within : p ≤ label.length)
    (viable : Viable limit (label.take p))
    (stuck : ∀ b, label[p]? = some b → ¬ Viable limit (label.take p ++ [b])) :
    Frontier limit label p := by
  refine ⟨⟨within, viable⟩, fun n ⟨bound, longer⟩ => Nat.not_lt.mp fun further => ?_⟩
  have inside : p < label.length := Nat.lt_of_lt_of_le further bound
  refine stuck label[p] (List.getElem?_eq_getElem inside) ?_
  rw [← List.take_succ_eq_append_getElem inside]
  exact longer.of_prefix (List.take_prefix_take_left further)

theorem Cursor.getElem?_offset (c : Cursor label) : label[c.offset]? = c.peek := by
  rw [Cursor.peek, c.rest_eq, List.head?_drop]

namespace Due

theorem standing_eq (due : Due limit depth op? c) :
    standing (label.take c.offset) = ⟨depth, .outside⟩ :=
  due.awaits.standing_eq

theorem viable (due : Due limit depth op? c) : Viable limit (label.take c.offset) := by
  have room := due.awaits.depth_le
  have begun := due.awaits.viable .plain trivial ((Nat.zero_add depth).symm ▸ room)
    (List.nil_prefix)
  rwa [List.append_nil] at begun

/-- What can follow where a term is due. -/
theorem first (due : Due limit depth op? c) {b : UInt8}
    (viable : Viable limit (label.take c.offset ++ [b])) :
    b = openByte ∧ depth < limit ∨ b = quoteByte ∨ isBareByte b = true := by
  obtain ⟨y, rest, whole, within⟩ := viable_iff.mp viable
  rw [List.append_assoc] at whole
  exact due.awaits.first whole within

end Due

namespace Done

theorem standing_eq (done : Done limit depth op? c) :
    standing (label.take c.offset) = ⟨depth, .outside⟩ := by
  obtain ⟨_, before, t, split, awaits, _, _⟩ := done
  rw [split, standing_append, awaits.standing_eq, Standing.run_term]

theorem viable (done : Done limit depth op? c) : Viable limit (label.take c.offset) := by
  obtain ⟨_, before, t, split, awaits, deep, _⟩ := done
  rw [split]
  exact awaits.viable (.single t) trivial deep List.prefix_rfl

/-- What can follow where a term has ended, however deep the rest may nest. -/
theorem behind (done : Done limit depth op? c) {b : UInt8} (next : c.peek = some b)
    (viable : Viable limit' (label.take c.offset ++ [b])) :
    b = closeByte ∧ 0 < depth ∨ ∃ op : Connective, b = op.byte ∧ ∀ o ∈ op?, o = op := by
  obtain ⟨_, before, t, split, awaits, _, ends⟩ := done
  obtain ⟨y, rest, whole, within⟩ := viable_iff.mp viable
  rw [split, List.append_assoc, List.append_assoc] at whole
  exact (awaits.mono (Nat.le_max_left limit limit')).behind whole
    (Nat.le_trans within (Nat.le_max_right limit limit')) (ends.of_head next)

end Done

end

/-- What a message says last where the label ended too early. -/
def endOfInput : List Char := "end of input".toList

theorem not_endOfInput (head : List Char) {tail : List Char} {c : Char}
    (last : tail.getLast? = some c) (other : c ≠ 't') : ¬ endOfInput <:+ head ++ tail := by
  rintro ⟨more, same⟩
  have ends := congrArg List.getLast? same
  rw [List.getLast?_append, List.getLast?_append, last] at ends
  exact other (Option.some.inj ends).symm

theorem endOfInput_seenName {head : String} {seen : Option Char} :
    endOfInput <:+ (head ++ Cause.seenName seen).toList ↔ seen = none := by
  rw [String.toList_append]
  cases seen with
  | none => exact iff_of_true (List.suffix_append _ _) rfl
  | some c =>
    refine iff_of_false (not_endOfInput _ (c := '\'') ?_ (by decide)) (Option.some_ne_none c)
    rw [Cause.seenName, String.toList_ofList]
    rfl

theorem not_endOfInput_number (head : String) (n : Nat) :
    ¬ endOfInput <:+ (head ++ toString n).toList := by
  have digits : (toString n).toList = Nat.toDigits 10 n := Nat.toList_repr
  cases last : (Nat.toDigits 10 n).getLast? with
  | none => exact absurd (List.getLast?_eq_none_iff.mp last) Nat.toDigits_ne_nil
  | some c =>
    have digit := Nat.isDigit_of_mem_toDigits (by decide) (by decide) (List.mem_of_getLast? last)
    rw [String.toList_append, digits]
    refine not_endOfInput _ last ?_
    rintro rfl
    exact absurd digit (by decide)

/-- A quote opens at `offset`. -/
def QuoteOpens (label : List UInt8) (offset : Nat) : Prop :=
  label[offset]? = some quoteByte ∧ (standing (label.take offset)).place = .outside

/-- How the place that a fault names lies to `p`, the end of what could have become an expression:
at it, or before it where a quote has been opened. -/
def Fault.Marks (label : List UInt8) (p : Nat) : Fault → Prop
  | .malformed .unclosedQuote _ offset =>
    p = label.length ∧ QuoteOpens label offset ∧
      ∀ n, offset < n → n ≤ p → (standing (label.take n)).place ≠ .outside
  | .malformed .emptyQuotes _ offset => offset + 1 = p ∧ QuoteOpens label offset
  | .malformed .looseEscape _ offset =>
    offset + 1 = p ∧ label[offset]? = some escapeByte ∧
      (standing (label.take offset)).place = .inside ∧
      ∀ b, label[p]? = some b → Escape.isMark b = false
  | .malformed (.other _) _ _ | .refused _ | .misuse _ => False
  | .malformed _ _ offset | .tooDeep _ _ offset => offset = p

/-- What a fault tells about a label of which the part up to `p` could have become an expression,
and no longer part: its place, its label, whether nothing more may be opened there, and whether
the label ended too early. -/
structure Fault.Locates (limit : UInt32) (label : List UInt8) (p : Nat) (fault : Fault) : Prop where
  marks : fault.Marks label p
  text : fault.label? = some (Text.Utf8.decodeLossy label)
  tooDeep : (∃ text offset, fault = .tooDeep limit text offset) ↔
    label[p]? = some openByte ∧ standing (label.take p) = ⟨limit.toNat, .outside⟩ ∧
      ∃ rest, IsExpression (label.take p ++ openByte :: rest)
  ended : endOfInput <:+ fault.message.toList ↔
    p = label.length ∧ (standing label).place = .outside

theorem not_tooDeep {limit : UInt32} {cause : Cause} {label : String} {place : Nat} :
    ¬ ∃ text offset, Fault.malformed cause label place = .tooDeep limit text offset := by
  rintro ⟨_, _, same⟩
  cases same

section

variable {label : List UInt8} {limit : UInt32} {depth : Nat} {op? : Option Connective}
  {c : Cursor label}

namespace Cursor

theorem offset_lt (c : Cursor label) {b : UInt8} (next : c.peek = some b) :
    c.offset < label.length := by
  rw [← c.getElem?_offset] at next
  exact (List.getElem?_eq_some_iff.mp next).1

/-- Nothing is seen exactly at the end of the label. -/
theorem seen_eq_none (c : Cursor label) (within : c.offset ≤ label.length)
    (stands : standing (label.take c.offset) = ⟨depth, .outside⟩) :
    c.seen = none ↔ c.offset = label.length ∧ (standing label).place = .outside := by
  constructor
  · intro ended
    have nothing : c.rest = [] := by
      rw [seen, atEnd] at ended
      split at ended
      next empty => exact List.isEmpty_iff.mp empty
      next => cases ended
    rw [c.rest_eq, List.drop_eq_nil_iff] at nothing
    have place := Nat.le_antisymm within nothing
    rw [place, List.take_length] at stands
    exact ⟨place, by rw [stands]⟩
  · rintro ⟨place, _⟩
    rw [seen, atEnd, c.rest_eq, place, List.drop_length]
    rfl

end Cursor

/-- A byte may follow a text if both begin an expression, however deep it nests. -/
theorem exists_isExpression_cons {text : List UInt8} {b : UInt8} :
    (∃ rest, IsExpression (text ++ b :: rest)) ↔ ∃ limit, Viable limit (text ++ [b]) := by
  constructor
  · rintro ⟨rest, derivable⟩
    refine ⟨_, rest, ?_, Nat.le_refl _⟩
    rwa [List.append_assoc]
  · rintro ⟨limit, rest, derivable, _⟩
    rw [List.append_assoc] at derivable
    exact ⟨rest, derivable⟩

theorem Due.locates_tooDeep (due : Due limit.toNat limit.toNat op? c)
    (opens : c.peek = some openByte) : Frontier limit.toNat label c.offset ∧
      (Fault.tooDeep limit (Text.Utf8.decodeLossy label) c.offset).Locates limit label
        c.offset := by
  have inside := c.offset_lt opens
  have next := c.getElem?_offset.trans opens
  have deeper : Viable (limit.toNat + 1) (label.take c.offset ++ [openByte]) :=
    (due.awaits.mono (Nat.le_succ _)).viable (.single (.enclosed .plain)) trivial
      (Nat.le_of_eq (Nat.add_comm _ _)) ⟨_, rfl⟩
  constructor
  · refine frontier_of_stuck due.within due.viable fun b found viable => ?_
    cases next.symm.trans found
    rcases due.first viable with ⟨_, room⟩ | quote | bare
    · exact Nat.lt_irrefl _ room
    · exact open_ne_quote quote
    · exact isBareByte_ne bare isBareByte_open rfl
  · refine ⟨rfl, rfl, iff_of_true ⟨_, _, rfl⟩ ⟨next, due.standing_eq,
      exists_isExpression_cons.mpr ⟨_, deeper⟩⟩, ?_⟩
    exact iff_of_false (not_endOfInput_number _ _) fun ended => Nat.ne_of_lt inside ended.1

theorem Due.locates_noTerm (due : Due limit.toNat depth op? c)
    (none : ∀ b, c.peek = some b → b ≠ openByte ∧ b ≠ quoteByte ∧ isBareByte b = false) :
    Frontier limit.toNat label c.offset ∧
      (c.fault (.noTerm c.seen)).Locates limit label c.offset := by
  constructor
  · refine frontier_of_stuck due.within due.viable fun b found viable => ?_
    obtain ⟨noOpen, noQuote, noBare⟩ := none b (c.getElem?_offset.symm.trans found)
    rcases due.first viable with ⟨opens, _⟩ | quote | bare
    · exact noOpen opens
    · exact noQuote quote
    · exact isBareByte_ne bare noBare rfl
  · refine ⟨rfl, rfl, iff_of_false not_tooDeep fun opens => ?_,
      endOfInput_seenName.trans (c.seen_eq_none due.within due.standing_eq)⟩
    exact (none openByte (c.getElem?_offset.symm.trans opens.1)).1 rfl

/-- Where a term has ended, an expression cannot go on with a parenthesis. -/
theorem Done.not_open {limit : Nat} (done : Done limit depth op? c)
    (opens : c.peek = some openByte) :
    ¬ ∃ rest, IsExpression (label.take c.offset ++ openByte :: rest) := by
  intro derivable
  obtain ⟨limit', viable⟩ := exists_isExpression_cons.mp derivable
  rcases done.behind opens viable with ⟨close, _⟩ | ⟨op, connective, _⟩
  · exact absurd close (by decide)
  · cases op <;> exact absurd connective (by decide)

/-- A term has ended, and what comes next neither closes what is open nor goes on with it. -/
theorem Done.locates {cause : Cause} (done : Done limit.toNat depth op? c)
    (close : c.peek = some closeByte → depth = 0)
    (connective : ∀ op : Connective, c.peek = some op.byte → ∃ o ∈ op?, o ≠ op)
    (marks : (c.fault cause).Marks label c.offset)
    (ended : endOfInput <:+ cause.message.toList ↔ c.seen = none) :
    Frontier limit.toNat label c.offset ∧ (c.fault cause).Locates limit label c.offset := by
  constructor
  · refine frontier_of_stuck done.within done.viable fun b found viable => ?_
    have next := c.getElem?_offset.symm.trans found
    rcases done.behind next viable with ⟨rfl, inner⟩ | ⟨op, rfl, same⟩
    · exact Nat.ne_of_gt inner (close next)
    · obtain ⟨o, found, other⟩ := connective op next
      exact other (same o found)
  · refine ⟨marks, rfl, iff_of_false not_tooDeep fun ⟨opens, _, derivable⟩ => ?_,
      ended.trans (c.seen_eq_none done.within done.standing_eq)⟩
    exact done.not_open (c.getElem?_offset.symm.trans opens) derivable

theorem Cursor.peek_ne_connective (alone : c.connective? = none) (op : Connective) :
    c.peek ≠ some op.byte := by
  intro more
  rw [Cursor.connective?_eq_some.mpr more] at alone
  cases alone

theorem Cursor.seen_ne_none {b : UInt8} (next : c.peek = some b) : c.seen ≠ none := by
  obtain ⟨bs, start⟩ := Cursor.peek_eq_some next
  rw [Cursor.seen, Cursor.atEnd, start]
  exact Option.some_ne_none _

theorem Done.locates_mixed {op : Connective} (done : Done limit.toNat depth (some op) c)
    (other : c.peek = some op.other.byte) : Frontier limit.toNat label c.offset ∧
      (c.fault .mixedConnectives).Locates limit label c.offset := by
  refine done.locates (fun close => ?_) (fun op' next => ⟨op, rfl, ?_⟩) rfl
    (iff_of_false (not_endOfInput [] (c := '\'') rfl (by decide))
      (Cursor.seen_ne_none other))
  · have byte := Option.some.inj (other.symm.trans close)
    cases op <;> exact absurd byte (by decide)
  · rintro rfl
    have byte := Option.some.inj (other.symm.trans next)
    cases op <;> exact absurd byte (by decide)

theorem Done.locates_unclosed (done : Done limit.toNat (depth + 1) op? c)
    (alone : c.connective? = none) (other : c.peek ≠ some closeByte) :
    Frontier limit.toNat label c.offset ∧
      (c.fault (.unexpected closeByte c.seen)).Locates limit label c.offset :=
  done.locates (fun close => absurd close other)
    (fun op next => absurd next (Cursor.peek_ne_connective alone op)) rfl endOfInput_seenName

theorem Done.locates_leftOver (done : Done limit.toNat 0 op? c) (alone : c.connective? = none)
    (more : c.atEnd = false) : Frontier limit.toNat label c.offset ∧
      (c.fault (.leftOver c.char)).Locates limit label c.offset := by
  have seen : c.seen ≠ none := by
    rw [Cursor.seen, more]
    exact Option.some_ne_none _
  exact done.locates (fun _ => rfl)
    (fun op next => absurd next (Cursor.peek_ne_connective alone op)) rfl
    (iff_of_false (mt endOfInput_seenName.mp (Option.some_ne_none _)) seen)

section

variable {body rest : List UInt8}

theorem Due.quoteOpens {limit : Nat} (due : Due limit depth op? c)
    (opens : c.peek = some quoteByte) : QuoteOpens label c.offset :=
  ⟨c.getElem?_offset.trans opens, by rw [due.standing_eq]⟩

theorem Cursor.take_append_rest (c : Cursor label) : label.take c.offset ++ c.rest = label := by
  rw [c.rest_eq, List.take_append_drop]

/-- A quote that is not closed stays open up to the end of the label. -/
theorem Due.place_in_quotes {limit : Nat} (due : Due limit depth op? c)
    (quoted : c.rest = quoteByte :: body) (escaped : Escape.Escaped body) {n : Nat}
    (further : c.offset < n) : (standing (label.take n)).place ≠ .outside := by
  obtain ⟨k, rfl⟩ := Nat.exists_eq_add_of_lt further
  rw [Nat.add_assoc, List.take_add, ← c.rest_eq, quoted, List.take_succ_cons, standing_append,
    due.standing_eq, Standing.run_cons, Standing.step_quote]
  exact Standing.place_run_take_escaped escaped k

theorem Due.locates_unclosedQuote (due : Due limit.toNat depth op? c)
    (quoted : c.rest = quoteByte :: body) (escaped : Escape.Escaped body) :
    Frontier limit.toNat label label.length ∧
      (c.fault .unclosedQuote).Locates limit label label.length := by
  have opens : c.peek = some quoteByte := Cursor.peek_eq quoted
  have stays := fun n => due.place_in_quotes quoted escaped (n := n)
  have nothing : label[label.length]? = none := List.getElem?_eq_none (Nat.le_refl _)
  -- A letter and a quote close the token, whether or not anything stands in it already.
  have viable := due.awaits.viable_quoted body [0x41] (by simp)
    (escaped.append (.plain (by decide) .nil))
  rw [← quoted, c.take_append_rest] at viable
  have silent : ¬ endOfInput <:+ Cause.unclosedQuote.message.toList :=
    not_endOfInput [] (c := 'e') rfl (by decide)
  constructor
  · refine frontier_of_stuck (Nat.le_refl _) ?_ fun b found => ?_
    · rwa [List.take_length]
    · cases nothing.symm.trans found
  · refine ⟨⟨rfl, due.quoteOpens opens, fun n further _ => stays n further⟩, rfl,
      iff_of_false not_tooDeep fun more => ?_, iff_of_false silent fun ended => ?_⟩
    · cases nothing.symm.trans more.1
    · exact stays label.length (c.offset_lt opens) (by rw [List.take_length, ended.2])

theorem Due.locates_emptyQuotes (due : Due limit.toNat depth op? c)
    (quoted : c.rest = quoteByte :: quoteByte :: rest) :
    Frontier limit.toNat label (c.offset + 1) ∧
      (c.fault .emptyQuotes).Locates limit label (c.offset + 1) := by
  have opens : c.peek = some quoteByte := Cursor.peek_eq quoted
  have before : label.take (c.offset + 1) = label.take c.offset ++ [quoteByte] :=
    Cursor.take_advance (Cursor.singleton_prefix opens)
  have again : (c.advance 1).peek = some quoteByte := by
    rw [Cursor.peek, Cursor.rest_advance, quoted]
    rfl
  have next := (c.advance 1).getElem?_offset.trans again
  have inside := (c.advance 1).offset_lt again
  have silent : ¬ endOfInput <:+ Cause.emptyQuotes.message.toList :=
    not_endOfInput [] (c := 's') rfl (by decide)
  constructor
  · refine frontier_of_stuck (Nat.le_of_lt inside) ?_ fun b found viable => ?_
    · rw [before]
      exact due.awaits.viable_quoted [] [0x41] (by simp) (.plain (by decide) .nil)
    · cases next.symm.trans found
      -- The first quote behind the opening one closes the token, which may not be empty.
      obtain ⟨y, more, whole, within⟩ := viable_iff.mp viable
      rw [before, List.append_assoc, List.append_assoc] at whole
      obtain ⟨body, tail, split, nonempty, escaped⟩ := due.awaits.quoted whole within
      exact nonempty (Escape.Escaped.nil.append_quote_unique escaped split).1.symm
  · refine ⟨⟨rfl, due.quoteOpens opens⟩, rfl, iff_of_false not_tooDeep fun more => ?_,
      iff_of_false silent fun ended => Nat.ne_of_lt inside ended.1⟩
    exact open_ne_quote (Option.some.inj (more.1.symm.trans next))

theorem Due.locates_looseEscape (due : Due limit.toNat depth op? c)
    (quoted : c.rest = quoteByte :: body ++ escapeByte :: rest) (escaped : Escape.Escaped body)
    (unkept : ∀ e, rest.head? = some e → Escape.isMark e = false) :
    let stop := c.advance (quoteByte :: body).length
    Frontier limit.toNat label (stop.offset + 1) ∧
      (stop.fault .looseEscape).Locates limit label (stop.offset + 1) := by
  intro stop
  have behind : stop.rest = escapeByte :: rest := Cursor.rest_advance_append quoted
  have loose : stop.peek = some escapeByte := Cursor.peek_eq behind
  have upToBody : label.take stop.offset = label.take c.offset ++ quoteByte :: body :=
    Cursor.take_advance ⟨_, quoted.symm⟩
  have before : label.take (stop.offset + 1) = label.take stop.offset ++ [escapeByte] :=
    Cursor.take_advance (Cursor.singleton_prefix loose)
  have inner : standing (label.take stop.offset) = ⟨depth, .inside⟩ := by
    rw [upToBody, standing_append, due.standing_eq, Standing.run_cons, Standing.step_quote,
      Standing.run_escaped escaped]
  have kept : standing (label.take (stop.offset + 1)) = ⟨depth, .kept⟩ := by
    rw [before, standing_append, inner]
    rfl
  have follows : label[stop.offset + 1]? = rest.head? := by
    rw [show label[stop.offset + 1]? = _ from (stop.advance 1).getElem?_offset, Cursor.peek,
      Cursor.rest_advance, behind]
    rfl
  have silent : ¬ endOfInput <:+ Cause.looseEscape.message.toList :=
    not_endOfInput [] (c := 's') rfl (by decide)
  constructor
  · refine frontier_of_stuck (stop.offset_lt loose) ?_ fun b found viable => ?_
    · rw [before, upToBody, List.append_assoc]
      refine due.awaits.viable_quoted (body ++ [escapeByte]) [quoteByte] (by simp) ?_
      rw [List.append_assoc]
      exact escaped.append (.kept (by decide) .nil)
    · obtain ⟨y, more, whole, within⟩ := viable_iff.mp viable
      -- Up to the closing quote of a completion, a mark would have to stand behind the escape.
      rw [before, upToBody, List.append_assoc, List.append_assoc, List.append_assoc] at whole
      obtain ⟨body', tail, split, _, escaped'⟩ := due.awaits.quoted whole within
      have mark := Escape.Escaped.isMark_behind escaped escaped' split
      rw [unkept b (follows.symm.trans found)] at mark
      cases mark
  · refine ⟨⟨rfl, stop.getElem?_offset.trans loose, by rw [inner],
      fun b found => unkept b (follows.symm.trans found)⟩, rfl,
      iff_of_false not_tooDeep fun more => ?_, iff_of_false silent fun ended => ?_⟩
    · cases kept.symm.trans more.2.1
    · rw [ended.1, List.take_length] at kept
      rw [kept] at ended
      cases ended.2

end

/-- Whatever stops a reading, its fault tells where the label could no longer be completed. -/
theorem Obstacle.locates {fault : Fault} (obstacle : Obstacle limit label fault) :
    ∃ p, Frontier limit.toNat label p ∧ fault.Locates limit label p := by
  cases obstacle with
  | tooDeep due opens => exact ⟨_, due.locates_tooDeep opens⟩
  | noTerm due none => exact ⟨_, due.locates_noTerm none⟩
  | unclosedQuote due quoted escaped => exact ⟨_, due.locates_unclosedQuote quoted escaped⟩
  | emptyQuotes due quoted => exact ⟨_, due.locates_emptyQuotes quoted⟩
  | looseEscape due quoted escaped unkept =>
    exact ⟨_, due.locates_looseEscape quoted escaped unkept⟩
  | mixed done other => exact ⟨_, done.locates_mixed other⟩
  | unclosed done alone other => exact ⟨_, done.locates_unclosed alone other⟩
  | leftOver done alone more => exact ⟨_, done.locates_leftOver alone more⟩

end

variable {σ ν γ : Type}

/-- A label that is not read could have become an expression up to some place and no further. The
fault tells that place, and whether parentheses nest too deep there or the label ended too early. -/
theorem Interpretation.read_fails_at_frontier {i : Interpretation σ ν γ} (total : i.NeverFails)
    {limit : UInt32} {label : List UInt8} {s t : σ} {fault : Fault}
    (failed : (i.read limit label).on s = (.error fault, t)) :
    ∃ p, Frontier limit.toNat label p ∧ fault.Locates limit label p := by
  obtain ⟨outline, fits, replays⟩ := exists_outline limit label
  have found : outline.fault? = some fault := by
    rw [← outline.fault?_replay total s, ← replays]
    exact Run.fault?_eq_some.mpr ⟨t, failed⟩
  cases outline with
  | empty => cases found
  | whole x => cases found
  | leftOver x fault' =>
    cases found
    exact Obstacle.locates fits
  | broken b =>
    cases found
    exact Obstacle.locates fits

/-- Where no parentheses are allowed, `A|(B)` fails at the parenthesis. -/
theorem Interpretation.read_fails_at_frontier_parenthesis :
    let label : List UInt8 := [0x41, 0x7C, 0x28, 0x42, 0x29]
    let fault : Fault := .tooDeep 0 (Text.Utf8.decodeLossy label) 2
    Interpretation.collecting.NeverFails ∧
      (∃ t, (Interpretation.collecting.read 0 label).on [] = (.error fault, t)) ∧
      Frontier 0 label 2 ∧ fault.Locates 0 label 2 := by
  intro label fault
  let first : Word := .bare [0x41] (by decide) (by decide)
  have reads : ReadsTerm 0 0 (Cursor.start label) (.word first) := readsTerm_word ⟨_, rfl⟩ rfl
  have breaks : BreaksMembers 0 0 .or ((Cursor.start label).advance 1) (.here (.absent fault)) :=
    breaksMembers_here rfl (breaksTerm_tooDeep rfl (by decide))
  have total := Interpretation.collecting_neverFails
  have failed : (Interpretation.collecting.read 0 label).on [] =
      (.error fault, [first.token 0]) := by
    rw [read_of_breaks (by decide) (breaksExpression_group reads rfl breaks)]
    rfl
  obtain ⟨p, frontier, locates⟩ := Interpretation.read_fails_at_frontier total failed
  obtain rfl : 2 = p := locates.marks
  exact ⟨total, ⟨_, failed⟩, frontier, locates⟩

end Clearance
