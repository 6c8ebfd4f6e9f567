import Clearance.Connective
import Clearance.Token

/-! A place in a label, and the scanning of tokens from there. White space means nothing to
a label, so every byte belongs to a token or to the structure. A scan that fails tells how
far it got. -/
namespace Clearance

/-- A place in `label`, which may lie past its end, with what is left from there on. -/
structure Cursor (label : List UInt8) where
  offset : Nat
  rest : List UInt8
  rest_eq : rest = label.drop offset

namespace Cursor

variable {label : List UInt8}

def start (label : List UInt8) : Cursor label := ⟨0, label, rfl⟩

def peek (c : Cursor label) : Option UInt8 := c.rest.head?

def atEnd (c : Cursor label) : Bool := c.rest.isEmpty

def advance (c : Cursor label) (n : Nat) : Cursor label :=
  ⟨c.offset + n, c.rest.drop n, by rw [c.rest_eq, List.drop_drop]⟩

/-- The connective that stands at the cursor. -/
def connective? (c : Cursor label) : Option Connective := c.peek.bind Connective.ofByte?

/-- The character that begins at the cursor. -/
def char (c : Cursor label) : Char := Text.Utf8.firstChar c.rest

/-- The character at the cursor, unless the label ends there. -/
def seen (c : Cursor label) : Option Char := if c.atEnd then none else some c.char

def faultAt (_ : Cursor label) (cause : Cause) (offset : Nat) : Fault :=
  .malformed cause (Text.Utf8.decodeLossy label) offset

def fault (c : Cursor label) (cause : Cause) : Fault := c.faultAt cause c.offset

/-- Steps over one given byte. -/
def expect (c : Cursor label) (b : UInt8) : Except Fault (Cursor label) :=
  if c.peek = some b then .ok (c.advance 1) else .error (c.fault (.unexpected b c.seen))

/-- How the scan of a quoted body ends. -/
inductive Ending where
  | closed
  | unclosed
  | looseEscape
  deriving DecidableEq, Repr

/-- The part of some text that a scan for a closing quote goes over. -/
structure Scan where
  body : List UInt8
  escapes : Bool
  ending : Ending

/-- Goes up to the first quote that no escape keeps; after an escape only a mark may stand. -/
def scanBody : List UInt8 → Scan
  | [] => ⟨[], false, .unclosed⟩
  | b :: bs =>
    if b = quoteByte then ⟨[], false, .closed⟩
    else if b = escapeByte then
      match bs with
      | [] => ⟨[], false, .looseEscape⟩
      | e :: bs =>
        if Escape.isMark e then
          let scan := scanBody bs
          ⟨b :: e :: scan.body, true, scan.ending⟩
        else ⟨[], false, .looseEscape⟩
    else
      let scan := scanBody bs
      ⟨b :: scan.body, scan.escapes, scan.ending⟩

/-- The quoted token that opens at the cursor, or what is wrong with it, and the place after
the token or where the scan stopped. -/
def quoted (c : Cursor label) : Except Fault Token × Cursor label :=
  let inner := c.advance 1
  let scan := scanBody inner.rest
  let stop := inner.advance scan.body.length
  match scan.ending with
  | .unclosed => (.error (c.fault .unclosedQuote), stop)
  | .looseEscape => (.error (stop.fault .looseEscape), stop)
  | .closed =>
    if scan.body.isEmpty then (.error (c.fault .emptyQuotes), stop)
    else
      let next := stop.advance 1
      (.ok { text := quoteByte :: scan.body ++ [quoteByte], body := scan.body,
             span := ⟨c.offset, next.offset⟩, quoted := true, escapes := scan.escapes }, next)

/-- The longest unquoted token at the cursor. -/
def bare (c : Cursor label) : Token × Cursor label :=
  let text := c.rest.takeWhile isBareByte
  let next := c.advance text.length
  ({ text, body := text, span := ⟨c.offset, next.offset⟩, quoted := false, escapes := false }, next)

/-- The token at the cursor, or what is wrong with it, and the place after the token or where
the scan stopped. -/
def token (c : Cursor label) : Except Fault Token × Cursor label :=
  match c.peek with
  | none => (.error (c.fault (.noTerm none)), c)
  | some b =>
    if b = quoteByte then c.quoted
    else if isBareByte b then let (t, next) := c.bare; (.ok t, next)
    else (.error (c.fault (.noTerm (some c.char))), c)

theorem peek_eq_some {c : Cursor label} {b : UInt8} (h : c.peek = some b) :
    ∃ bs, c.rest = b :: bs := by
  unfold peek at h
  cases hr : c.rest with
  | nil => simp [hr] at h
  | cons x xs => simp [hr] at h; exact ⟨xs, by rw [h]⟩

@[simp] theorem rest_advance (c : Cursor label) (n : Nat) :
    (c.advance n).rest = c.rest.drop n := rfl

@[simp] theorem offset_advance (c : Cursor label) (n : Nat) :
    (c.advance n).offset = c.offset + n := rfl

theorem rest_advance_lt {c : Cursor label} {b : UInt8} {n : Nat} (h : c.peek = some b)
    (hn : 0 < n) : (c.advance n).rest.length < c.rest.length := by
  obtain ⟨bs, hr⟩ := peek_eq_some h
  simp only [rest_advance, List.length_drop, hr, List.length_cons]
  omega

theorem expect_eq_ok {c next : Cursor label} {b : UInt8} :
    c.expect b = .ok next ↔ c.peek = some b ∧ c.advance 1 = next := by
  unfold expect
  split <;> simp_all

theorem rest_expect_le {c next : Cursor label} {b : UInt8} (h : c.expect b = .ok next) :
    next.rest.length ≤ c.rest.length := by
  obtain ⟨_, rfl⟩ := expect_eq_ok.1 h
  simp

/-- A token takes at least one byte. -/
theorem rest_token_lt {c next : Cursor label} {t : Token} (h : c.token = (.ok t, next)) :
    next.rest.length < c.rest.length := by
  unfold token at h
  split at h
  · simp at h
  next b hb =>
    obtain ⟨bs, hr⟩ := peek_eq_some hb
    split at h
    · unfold quoted at h
      dsimp only at h
      split at h
      · simp at h
      · simp at h
      · split at h
        · simp at h
        · simp only [Prod.mk.injEq, Except.ok.injEq] at h
          rw [← h.2]
          simp only [rest_advance, List.length_drop, hr, List.length_cons]
          omega
    · split at h
      next bareByte =>
        simp only [Prod.mk.injEq, bare] at h
        rw [← h.2]
        simp only [rest_advance, List.length_drop, hr, List.takeWhile_cons, bareByte, if_true,
          List.length_cons]
        omega
      · simp at h

end Cursor

end Clearance
