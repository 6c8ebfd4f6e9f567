import Clearance.Proofs.Indexing

/-! What a tokenizer does when it is asked one thing after another, in any order and from any
place. Each question is answered within the label, none takes the cursor back, and only a step that
is asked for takes it past the end. -/
namespace Clearance

open Grammar

/-- What can be asked of a tokenizer. -/
inductive Query where
  | peek
  | advance
  | expect (b : UInt8)
  | token
  | char

inductive Answer where
  | byte (b? : Option UInt8)
  | advanced
  | expected (result : Except Fault Unit)
  | token (result : Except Fault Token)
  | char (c : Char)

/-- A query with its answer, and where the cursor stands before and after it. -/
structure Exchange where
  query : Query
  start : Nat
  answer : Answer
  stop : Nat

namespace Cursor

variable {label : List UInt8}

def answer (c : Cursor label) : Query → Answer × Cursor label
  | .peek => (.byte c.peek, c)
  | .advance => (.advanced, c.advance 1)
  | .expect b =>
    match c.expect b with
    | .ok next => (.expected (.ok ()), next)
    | .error fault => (.expected (.error fault), c)
  | .token => (.token c.token.1, c.token.2)
  | .char => (.char c.char, c)

def exchange (c : Cursor label) (query : Query) : Exchange :=
  ⟨query, c.offset, (c.answer query).1, (c.answer query).2.offset⟩

def session (c : Cursor label) : List Query → List Exchange
  | [] => []
  | query :: queries => c.exchange query :: (c.answer query).2.session queries

end Cursor

namespace Indexed

variable (label : List UInt8)

def answer (place : Nat) : Query → Option (Answer × Nat)
  | .peek => return (.byte label[place]?, place)
  | .advance => return (.advanced, place + 1)
  | .expect b => do
    let (result, stop) ← expect label b place
    return (.expected result, stop)
  | .token => do
    let (result, stop) ← token label place
    return (.token result, stop)
  | .char => return (.char (← char label place), place)

def session (place : Nat) : List Query → Option (List Exchange)
  | [] => some []
  | query :: queries => do
    let (answer, stop) ← answer label place query
    return ⟨query, place, answer, stop⟩ :: (← session stop queries)

end Indexed

section

variable {label : List UInt8}

theorem Indexed.answer_eq (c : Cursor label) (query : Query) :
    answer label c.offset query = some ((c.answer query).1, (c.answer query).2.offset) := by
  cases query with
  | peek => simp [answer, Cursor.answer, c.getElem?_offset]
  | advance => rfl
  | expect b =>
    rw [answer, expect_eq, Cursor.answer]
    cases c.expect b <;> rfl
  | token => simp [answer, token_eq, Cursor.answer]
  | char => simp [answer, char_eq, Cursor.answer]

end

/-- A token that was read from the label between two places. -/
structure Token.Stands (label : List UInt8) (start stop : Nat) (t : Token) : Prop where
  span : t.span = ⟨start, stop⟩
  text : t.span.slice? label = some t.text
  enclosed : t.quoted = true → t.text = quoteByte :: t.body ++ [quoteByte]
  bare : t.quoted = false → t.text = t.body
  nonempty : t.body ≠ []
  ends : t.quoted = false → ∀ b, label[stop]? = some b → isBareByte b = false

namespace Cursor

variable {label : List UInt8}

end Cursor

namespace Cursor

variable {label : List UInt8}

/-- In the label `"a\"b"` a token begins behind the escape as well, and steps go on past the end. -/
example : ((start [0x22, 0x61, 0x5C, 0x22, 0x62, 0x22]).session
    [.advance, .advance, .advance, .token, .advance, .token]).map Exchange.stop =
      [1, 2, 3, 6, 7, 7] := by
  decide

end Cursor

end Clearance
