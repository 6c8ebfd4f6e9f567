import Clearance.Proofs.Kept
import Clearance.Proofs.Messages

/-! The tokenizer by indices. It knows its place only by number, and takes bytes and slices of the
label by numbers too, each of which could be out of range. None ever is, in whatever order it is
called and wherever it has got to, past the end or within a character: it answers what the cursor
answers at that place. -/
namespace Clearance

open Text.Utf8 Grammar

/-- The elements that a span covers, unless it reaches beyond the list. -/
def Span.slice? {α : Type} (s : Span) (xs : List α) : Option (List α) :=
  if s.start ≤ s.stop ∧ s.stop ≤ xs.length then some (s.slice xs) else none

theorem Span.slice?_of_prefix {α : Type} {as xs : List α} {offset : Nat}
    (stands : as <+: xs.drop offset) (within : offset ≤ xs.length) :
    (Span.mk offset (offset + as.length)).slice? xs = some as := by
  have longer := stands.length_le
  rw [List.length_drop] at longer
  rw [slice?, if_pos ⟨Nat.le_add_right _ _, by dsimp only; omega⟩, slice_of_prefix_drop stands]

theorem Span.slice?_drop {α : Type} {xs : List α} {offset : Nat} (within : offset ≤ xs.length) :
    (Span.mk offset xs.length).slice? xs = some (xs.drop offset) := by
  have whole := slice?_of_prefix (List.prefix_refl (xs.drop offset)) within
  rwa [List.length_drop, Nat.add_sub_cancel' within] at whole

namespace Text.Utf8

/-- The characters before the first piece that is broken. -/
def leading (bs : List UInt8) : List Char := ((pieces bs).takeWhile Option.isSome).filterMap id

/-- Up to where the bytes are text. -/
def validUpTo (bs : List UInt8) : Nat := (encode (leading bs)).length

theorem leading_cons (b : UInt8) (bs : List UInt8) : leading (b :: bs) =
    match front b bs with
    | .char c rest => c :: leading rest
    | .broken _ => [] := by
  rw [leading, pieces]
  cases front b bs <;> rfl

theorem encode_leading (bs : List UInt8) : encode (leading bs) <+: bs := by
  fun_induction pieces bs with
  | case1 => simp [leading, pieces, encode]
  | case2 b bs ih =>
    rw [leading_cons]
    cases read : front b bs with
    | broken rest => exact List.nil_prefix
    | char c rest =>
      rw [read] at ih
      have later : encode (leading rest) <+: rest := ih
      rw [eq_append_of_front read]
      simpa [encode_cons] using later

theorem firstChar_eq (bs : List UInt8) : firstChar bs = (leading bs).head?.getD replacement := by
  cases bs with
  | nil => simp [firstChar, leading, pieces]
  | cons b bs =>
    rw [firstChar, leading_cons]
    cases front b bs <;> rfl

end Text.Utf8

/-- For each byte, whether it may stand in an unquoted authorization. -/
def bareTable : List Bool := (List.range 256).map fun n => isBareByte (UInt8.ofNat n)

/-- Every byte has its entry. -/
theorem getElem?_bareTable (b : UInt8) : bareTable[b.toNat]? = some (isBareByte b) := by
  rw [bareTable, List.getElem?_map, List.getElem?_range b.toNat_lt, Option.map_some,
    UInt8.ofNat_toNat]

namespace Indexed

variable (label : List UInt8)

def fault (cause : Cause) (place : Nat) : Fault := .malformed cause (decodeLossy label) place

/-- How many bare bytes come first. -/
def bareLength : List UInt8 → Option Nat
  | [] => some 0
  | b :: bs => do if ← bareTable[b.toNat]? then return (← bareLength bs) + 1 else return 0

/-- Goes on from `place` up to the first quote that no escape keeps, two bytes at a time where one
keeps a mark. -/
def close (escapes : Bool) (place : Nat) : Cursor.Ending × Bool × Nat :=
  match here : label[place]? with
  | none => (.unclosed, escapes, place)
  | some b =>
    if b = quoteByte then (.closed, escapes, place)
    else if b = escapeByte then
      if label[place + 1]?.any Escape.isMark then close true (place + 2)
      else (.looseEscape, escapes, place)
    else close escapes (place + 1)
termination_by label.length - place
decreasing_by all_goals have := (List.getElem?_eq_some_iff.mp here).1; omega

def quoted (opening : Nat) : Option (Except Fault Token × Nat) :=
  match close label false (opening + 1) with
  | (.unclosed, _, stop) => return (.error (fault label .unclosedQuote opening), stop)
  | (.looseEscape, _, stop) => return (.error (fault label .looseEscape stop), stop)
  | (.closed, escapes, stop) =>
    if stop = opening + 1 then return (.error (fault label .emptyQuotes opening), stop)
    else do
      let body ← (Span.mk (opening + 1) stop).slice? label
      let text ← (Span.mk opening (stop + 1)).slice? label
      let span : Span := ⟨opening, stop + 1⟩
      return (.ok { text, body, span, quoted := true, escapes }, stop + 1)

/-- The character at a place, from the text that the next four bytes begin with. -/
def char (place : Nat) : Option Char := do
  let rest := ((Span.mk place label.length).slice? label).getD []
  let window ← (Span.mk 0 (min rest.length 4)).slice? rest
  let valid ← (Span.mk 0 (validUpTo window)).slice? window
  return ((decode? valid).bind (·.toList.head?)).getD replacement

def bare (place : Nat) : Option (Token × Nat) := do
  let rest ← (Span.mk place label.length).slice? label
  let stop := place + (← bareLength rest)
  let text ← (Span.mk place stop).slice? label
  let span : Span := ⟨place, stop⟩
  return ({ text, body := text, span, quoted := false, escapes := false }, stop)

def token (place : Nat) : Option (Except Fault Token × Nat) :=
  match label[place]? with
  | none => return (.error (fault label (.noTerm none) place), place)
  | some b =>
    if b = quoteByte then quoted label place
    else do
      if ← bareTable[b.toNat]? then
        let (token, stop) ← bare label place
        return (.ok token, stop)
      else
        return (.error (fault label (.noTerm (some (← char label place))) place), place)

/-- Steps over one given byte, or stays. -/
def expect (b : UInt8) (place : Nat) : Option (Except Fault Unit × Nat) :=
  match label[place]? with
  | none => return (.error (fault label (.unexpected b none) place), place)
  | some found =>
    if found = b then return (.ok (), place + 1)
    else do return (.error (fault label (.unexpected b (some (← char label place))) place), place)

end Indexed

section

variable {label : List UInt8} (c : Cursor label)

namespace Indexed

theorem bareLength_eq (bs : List UInt8) :
    bareLength bs = some (bs.takeWhile isBareByte).length := by
  induction bs with
  | nil => rfl
  | cons b bs ih =>
    rw [bareLength, getElem?_bareTable, List.takeWhile_cons, ih]
    cases isBareByte b <;> rfl

/-- The byte at an index stands first in what is left from there. -/
theorem drop_of_getElem? {place : Nat} {b : UInt8} (here : label[place]? = some b) :
    label.drop place = b :: label.drop (place + 1) := by
  obtain ⟨within, rfl⟩ := List.getElem?_eq_some_iff.mp here
  exact List.drop_eq_getElem_cons within

/-- The scan by indices is the scan of what is left of the label. -/
theorem close_eq (escapes : Bool) (place : Nat) :
    close label escapes place =
      let scan := Cursor.scanBody (label.drop place)
      (scan.ending, escapes || scan.escapes, place + scan.body.length) := by
  fun_induction close label escapes place with
  | case1 escapes place ended =>
    rw [List.drop_eq_nil_of_le (List.getElem?_eq_none_iff.mp ended)]
    simp [Cursor.scanBody]
  | case2 escapes place here =>
    rw [drop_of_getElem? here, Cursor.scanBody.eq_def]
    simp
  | case3 escapes place mark here _ ih =>
    cases next : label[place + 1]? with
    | none => simp [next] at mark
    | some e =>
      have kept : Escape.isMark e = true := by simpa [next] using mark
      rw [drop_of_getElem? here, drop_of_getElem? next, Cursor.scanBody.eq_def, ih]
      simp [kept, escape_ne_quote, Nat.add_assoc, Nat.add_comm 2]
  | case4 escapes place loose here _ =>
    rw [drop_of_getElem? here, Cursor.scanBody.eq_def]
    cases next : label[place + 1]? with
    | none =>
      simp [List.drop_eq_nil_of_le (List.getElem?_eq_none_iff.mp next), escape_ne_quote]
    | some e =>
      have unkept : Escape.isMark e = false := by simpa [next] using loose
      rw [drop_of_getElem? next]
      simp [unkept, escape_ne_quote]
  | case5 escapes place b here quote escape ih =>
    rw [drop_of_getElem? here, Cursor.scanBody.eq_def, ih]
    simp [quote, escape, Nat.add_assoc, Nat.add_comm 1]

/-- The character is that of the four bytes at most that stand there. -/
theorem char_eq : char label c.offset = some c.char := by
  have rest : ((Span.mk c.offset label.length).slice? label).getD [] = c.rest := by
    rw [c.rest_eq]
    rcases Nat.le_total c.offset label.length with within | past
    · rw [Span.slice?_drop within]
      rfl
    · rw [List.drop_eq_nil_of_le past, Span.slice?]
      split
      next within => simp [Span.slice, Span.length, List.drop_eq_nil_of_le past]
      · rfl
  have window : (Span.mk 0 (min c.rest.length 4)).slice? c.rest = some (c.rest.take 4) := by
    have few : min c.rest.length 4 ≤ c.rest.length := Nat.min_le_left _ _
    simp [Span.slice?, Span.slice, Span.length, few, Nat.min_comm]
  have valid : (Span.mk 0 (validUpTo (c.rest.take 4))).slice? (c.rest.take 4) =
      some (encode (leading (c.rest.take 4))) := by
    have stands : encode (leading (c.rest.take 4)) <+: (c.rest.take 4).drop 0 :=
      encode_leading _
    simpa [validUpTo] using Span.slice?_of_prefix stands (Nat.zero_le _)
  have text : decode? (encode (leading (c.rest.take 4))) =
      some (String.ofList (leading (c.rest.take 4))) :=
    decode?_eq_some.mpr (bytes_ofList _).symm
  rw [char, rest, Cursor.char, ← firstChar_take, firstChar_eq]
  simp [window, valid, text]

theorem quoted_eq {c : Cursor label} (opens : c.peek = some quoteByte) :
    quoted label c.offset = some (c.quoted.1, c.quoted.2.offset) := by
  have inner : label.drop (c.offset + 1) = (c.advance 1).rest := (c.advance 1).rest_eq.symm
  rw [quoted, close_eq, inner, Cursor.quoted]
  dsimp only
  cases ends : (Cursor.scanBody (c.advance 1).rest).ending with
  | unclosed => rfl
  | looseEscape => rfl
  | closed =>
    obtain ⟨_, rest, split⟩ := Cursor.scanBody_sound ends
    generalize Cursor.scanBody (c.advance 1).rest = scan at split
    have within : c.offset + 1 ≤ label.length := c.offset_lt opens
    have body : (Span.mk (c.offset + 1) (c.offset + 1 + scan.body.length)).slice? label =
        some scan.body := by
      apply Span.slice?_of_prefix ?_ within
      exact ⟨quoteByte :: rest, by rw [inner, split]⟩
    have text : (Span.mk c.offset (c.offset + 1 + scan.body.length + 1)).slice? label =
        some (quoteByte :: scan.body ++ [quoteByte]) := by
      have stands : quoteByte :: scan.body ++ [quoteByte] <+: label.drop c.offset := by
        obtain ⟨bs, start⟩ := Cursor.peek_eq_some opens
        simp only [Cursor.rest_advance, start, List.drop_succ_cons, List.drop_zero] at split
        exact ⟨rest, by simp [← c.rest_eq, start, split]⟩
      have part := Span.slice?_of_prefix stands (Nat.le_of_succ_le within)
      simpa [Nat.add_assoc, Nat.add_comm 1] using part
    cases empty : scan.body with
    | nil => simp [fault, Cursor.fault, Cursor.faultAt]
    | cons b bs =>
      simp only [empty, List.length_cons] at body text
      simp [body, text]

theorem bare_eq {c : Cursor label} (within : c.offset ≤ label.length) :
    bare label c.offset = some (c.bare.1, c.bare.2.offset) := by
  have stands : c.rest.takeWhile isBareByte <+: label.drop c.offset := by
    rw [← c.rest_eq]
    exact List.takeWhile_prefix _
  have text := Span.slice?_of_prefix stands within
  simp [bare, Span.slice?_drop within, ← c.rest_eq, bareLength_eq, text, Cursor.bare]

theorem token_eq : token label c.offset = some (c.token.1, c.token.2.offset) := by
  rw [token, c.getElem?_offset, Cursor.token]
  cases next : c.peek with
  | none => rfl
  | some b =>
    dsimp only
    split
    next quote =>
      rw [quote] at next
      exact quoted_eq next
    · rw [getElem?_bareTable, char_eq, bare_eq (Nat.le_of_lt (c.offset_lt next))]
      cases isBareByte b <;> rfl

/-- A byte that is not the expected one leaves the cursor where it is. -/
theorem expect_eq (b : UInt8) : expect label b c.offset = some (match c.expect b with
    | .ok next => (.ok (), next.offset)
    | .error fault => (.error fault, c.offset)) := by
  rw [expect, c.getElem?_offset, char_eq, Cursor.expect, Cursor.seen, Cursor.atEnd]
  cases next : c.peek with
  | none =>
    have ended : c.rest = [] := List.head?_eq_none_iff.mp next
    simp [ended, fault, Cursor.fault, Cursor.faultAt]
  | some found =>
    obtain ⟨bs, start⟩ := Cursor.peek_eq_some next
    by_cases same : found = b
    · simp [same]
    · simp [same, start, fault, Cursor.fault, Cursor.faultAt]

end Indexed

end

end Clearance
