import Clearance.Cursor
import Clearance.Interpretation

/-! The reading of a label. A group is two or more terms joined by one connective, and a
term is a token, or a term or group in parentheses. The descent follows that shape and hands
each part over as soon as it has been read. Parentheses may nest up to a limit. -/
namespace Clearance

/-- A finished part that began at `c`, its span, and the place behind it. A part has at least
one byte, which is why a reading comes to an end. -/
structure Part {label : List UInt8} (ν : Type) (c : Cursor label) where
  node : ν
  span : Span
  next : Cursor label
  rest_lt : next.rest.length < c.rest.length

namespace Interpretation

variable {σ ν γ : Type} {label : List UInt8}

mutual

/-- A term, and the group it begins if a connective follows. -/
def expression (i : Interpretation σ ν γ) (limit : UInt32) (live : Bool) (depth : UInt32)
    (c : Cursor label) : Run σ (Part ν c) := do
  let first ← term i limit live depth c
  match first.next.connective? with
  | none => return first
  | some op =>
    let group ← i.begin op first.node first.span
    siblings i limit live depth op group first.span c first.next first.rest_lt
termination_by 2 * c.rest.length + 1
decreasing_by
  · omega
  · have := first.rest_lt; omega

/-- The further members of a group that began at `opening`, from `c` on. -/
def siblings (i : Interpretation σ ν γ) (limit : UInt32) (live : Bool) (depth : UInt32)
    (op : Connective) (group : γ) (span : Span) (opening c : Cursor label)
    (after : c.rest.length < opening.rest.length) : Run σ (Part ν opening) := do
  if more : c.peek = some op.byte then
    let memberLive ← i.memberLive live group
    let member ← term i limit memberLive depth (c.advance 1)
    let group ← i.add group member.node member.span
    siblings i limit live depth op group (span.merge member.span) opening member.next
      (Nat.lt_trans member.rest_lt (Nat.lt_trans (c.rest_advance_lt more Nat.one_pos) after))
  else if c.peek = some op.other.byte then throw (c.fault .mixedConnectives)
  else return { node := ← i.finish group span, span, next := c, rest_lt := after }
termination_by 2 * c.rest.length
decreasing_by
  · have := c.rest_advance_lt more Nat.one_pos; omega
  · have := member.rest_lt; have := c.rest_advance_lt more Nat.one_pos; omega

/-- A token, or what stands in a pair of parentheses. -/
def term (i : Interpretation σ ν γ) (limit : UInt32) (live : Bool) (depth : UInt32)
    (c : Cursor label) : Run σ (Part ν c) := do
  if nested : c.peek = some openByte then
    if depth ≥ limit then throw (.tooDeep limit (Text.Utf8.decodeLossy label) c.offset)
    else
      let inner ← expression i limit live (depth + 1) (c.advance 1)
      match closed : inner.next.expect closeByte with
      | .error fault => throw fault
      | .ok next =>
        return { node := inner.node, span := ⟨c.offset, next.offset⟩, next
                 rest_lt := Nat.lt_of_le_of_lt (Cursor.rest_expect_le closed)
                  (Nat.lt_trans inner.rest_lt (c.rest_advance_lt nested Nat.one_pos)) }
  else
    match scanned : c.token with
    | (.error fault, _) => throw fault
    | (.ok token, next) =>
      return { node := ← i.leaf token live, span := token.span, next
               rest_lt := Cursor.rest_token_lt scanned }
termination_by 2 * c.rest.length
decreasing_by have := c.rest_advance_lt nested Nat.one_pos; omega

end

/-- Reads a whole label. -/
def read (i : Interpretation σ ν γ) (limit : UInt32) (label : List UInt8) : Run σ ν := do
  let c := Cursor.start label
  if c.atEnd then i.empty
  else
    let whole ← expression i limit true 0 c
    if whole.next.atEnd then return whole.node
    else throw (whole.next.fault (.leftOver whole.next.char))

end Interpretation

end Clearance
