import Clearance.Cursor
import Clearance.Proofs.Grammar

/-! The scan of a token finds exactly the words of the grammar: every word is found where
something follows that ends it, and whatever is found is a word. -/
namespace Clearance.Cursor
open Grammar

variable {label : List UInt8}

theorem eq_of_offset {c d : Cursor label} (same : c.offset = d.offset) : c = d := by
  obtain ⟨offset, rest, restEq⟩ := c
  obtain ⟨offset', rest', restEq'⟩ := d
  cases same
  subst restEq restEq'
  rfl

theorem advance_advance (c : Cursor label) (m n : Nat) :
    (c.advance m).advance n = c.advance (m + n) :=
  eq_of_offset (Nat.add_assoc _ _ _)

theorem peek_eq {c : Cursor label} {b : UInt8} {bs : List UInt8} (rest : c.rest = b :: bs) :
    c.peek = some b := by
  rw [peek, rest]
  rfl

/-- The byte at the cursor is one of what is left. -/
theorem rest_advance_succ {c : Cursor label} {b : UInt8} (here : c.peek = some b) :
    (c.advance 1).rest.length + 1 = c.rest.length := by
  obtain ⟨bs, start⟩ := peek_eq_some here
  simp [start]

theorem connective?_eq_some {c : Cursor label} {op : Connective} :
    c.connective? = some op ↔ c.peek = some op.byte := by
  rw [connective?, Option.bind_eq_some_iff]
  constructor
  · rintro ⟨b, peek, connective⟩
    rw [peek, Connective.ofByte?_eq_some.mp connective]
  · intro peek
    exact ⟨op.byte, peek, Connective.ofByte?_eq_some.mpr rfl⟩

theorem rest_advance_append {c : Cursor label} {text rest : List UInt8}
    (split : c.rest = text ++ rest) : (c.advance text.length).rest = rest := by
  rw [rest_advance, split, List.drop_left]

theorem contains_escape_cons {b : UInt8} (plain : b ≠ escapeByte) (bs : List UInt8) :
    (b :: bs).contains escapeByte = bs.contains escapeByte := by
  rw [List.contains_cons, beq_eq_false_iff_ne.mpr plain.symm, Bool.false_or]

/-- An escape is the first byte of a step over two bytes, so a body has escapes exactly if
the scan of it took such a step. -/
theorem scanBody_complete {body : List UInt8} (escaped : Escape.Escaped body)
    (rest : List UInt8) :
    scanBody (body ++ quoteByte :: rest) = ⟨body, body.contains escapeByte, .closed⟩ := by
  induction escaped with
  | nil => rw [List.nil_append, scanBody.eq_def]; simp
  | @plain b bs hb _ ih =>
    obtain ⟨quote, escape⟩ := Escape.isMark_eq_false.mp hb
    rw [List.cons_append, scanBody.eq_def]
    simp only [show b ≠ quoteByte from quote, show b ≠ escapeByte from escape, if_false, ih,
      contains_escape_cons escape]
  | @kept b bs hb _ ih =>
    rw [List.cons_append, List.cons_append, scanBody.eq_def]
    simp only [show (Marked.escape : UInt8) = escapeByte from rfl,
      escape_ne_quote, hb, if_false, if_true, ih]
    simp

theorem scanBody_sound {bs : List UInt8} (closed : (scanBody bs).ending = .closed) :
    Escape.Escaped (scanBody bs).body ∧ ∃ rest, bs = (scanBody bs).body ++ quoteByte :: rest := by
  fun_induction scanBody bs with
  | case1 => cases closed
  | case2 bs => exact ⟨.nil, bs, rfl⟩
  | case3 => cases closed
  | case4 e bs mark _ _ ih =>
    obtain ⟨escaped, rest, split⟩ := ih closed
    refine ⟨.kept mark escaped, rest, ?_⟩
    rw [List.cons_append, List.cons_append, ← split]
  | case5 => cases closed
  | case6 b bs quote escape _ ih =>
    obtain ⟨escaped, rest, split⟩ := ih closed
    refine ⟨.plain (Escape.isMark_eq_false.mpr ⟨quote, escape⟩) escaped, rest, ?_⟩
    rw [List.cons_append, ← split]

theorem scanBody_unclosed {bs : List UInt8} (unclosed : (scanBody bs).ending = .unclosed) :
    Escape.Escaped bs := by
  fun_induction scanBody bs with
  | case1 => exact .nil
  | case2 => cases unclosed
  | case3 => cases unclosed
  | case4 e bs mark _ _ ih => exact .kept mark (ih unclosed)
  | case5 => cases unclosed
  | case6 b bs quote escape _ ih =>
    exact .plain (Escape.isMark_eq_false.mpr ⟨quote, escape⟩) (ih unclosed)

/-- A loose escape is followed by no mark: it keeps nothing. -/
theorem scanBody_looseEscape {bs : List UInt8} (loose : (scanBody bs).ending = .looseEscape) :
    Escape.Escaped (scanBody bs).body ∧ ∃ rest, bs = (scanBody bs).body ++ escapeByte :: rest ∧
      ∀ e, rest.head? = some e → Escape.isMark e = false := by
  fun_induction scanBody bs with
  | case1 => cases loose
  | case2 => cases loose
  | case3 => exact ⟨.nil, [], rfl, nofun⟩
  | case4 e bs mark _ _ ih =>
    obtain ⟨escaped, rest, split, unkept⟩ := ih loose
    refine ⟨.kept mark escaped, rest, ?_, unkept⟩
    rw [List.cons_append, List.cons_append, ← split]
  | case5 e bs mark =>
    refine ⟨.nil, e :: bs, rfl, ?_⟩
    intro e' found
    cases found
    exact Bool.not_eq_true _ ▸ mark
  | case6 b bs quote escape _ ih =>
    obtain ⟨escaped, rest, split, unkept⟩ := ih loose
    refine ⟨.plain (Escape.isMark_eq_false.mpr ⟨quote, escape⟩) escaped, rest, ?_, unkept⟩
    rw [List.cons_append, ← split]

theorem quoted_word {c : Cursor label} {body rest : List UInt8} (nonempty : body ≠ [])
    (escaped : Escape.Escaped body)
    (split : c.rest = (Word.quoted body nonempty escaped).text ++ rest) :
    c.quoted = (.ok ((Word.quoted body nonempty escaped).token c.offset),
      c.advance (Word.quoted body nonempty escaped).text.length) := by
  have inner : (c.advance 1).rest = body ++ quoteByte :: rest := by
    rw [rest_advance, split]
    simp [Word.text]
  have length : (Word.quoted body nonempty escaped).text.length = 1 + body.length + 1 := by
    simp [Word.text]
    omega
  unfold quoted
  simp only [inner, scanBody_complete escaped, List.isEmpty_eq_false_iff.mpr nonempty,
    Bool.false_eq_true, if_false, advance_advance, length, Word.token, offset_advance]
  rfl

theorem contains_escape_bare {bytes : List UInt8} (all : isBare bytes = true) :
    bytes.contains escapeByte = false := by
  rw [List.contains_eq_any_beq, List.any_eq_false]
  intro b member same
  exact isBareByte_ne (List.all_eq_true.mp all b member) isBareByte_escape
    (eq_of_beq same).symm

theorem bare_word {c : Cursor label} {bytes : List UInt8} (nonempty : bytes ≠ [])
    (all : isBare bytes = true) (run : c.rest.takeWhile isBareByte = bytes) :
    c.bare = ((Word.bare bytes nonempty all).token c.offset,
      c.advance (Word.bare bytes nonempty all).text.length) := by
  unfold bare
  simp only [run, Word.token, Word.body, contains_escape_bare all]
  rfl

/-- A word that something ends is the token at its place. -/
theorem token_complete {c : Cursor label} {w : Word} {rest : List UInt8} (ends : EndsTerm rest)
    (split : c.rest = w.text ++ rest) :
    c.token = (.ok (w.token c.offset), c.advance w.text.length) := by
  cases w with
  | bare bytes nonempty all =>
    obtain ⟨b, bs, rfl⟩ := List.exists_cons_of_ne_nil nonempty
    have bare : isBareByte b = true := List.all_eq_true.mp all b List.mem_cons_self
    have run : c.rest.takeWhile isBareByte = b :: bs := by
      rw [split]
      exact takeWhile_bare all ends
    have quote : b ≠ quoteByte := isBareByte_ne bare isBareByte_quote
    unfold token
    simp only [peek_eq split, if_neg quote, if_pos bare]
    rw [bare_word nonempty all run]
  | quoted body nonempty escaped =>
    unfold token
    simp only [peek_eq split, if_true]
    exact quoted_word nonempty escaped split

theorem quoted_sound {c next : Cursor label} {t : Token} (opens : c.peek = some quoteByte)
    (scanned : c.quoted = (.ok t, next)) :
    ∃ w : Word, w.text <+: c.rest ∧ w.EndsBefore (c.advance w.text.length).rest ∧
      t = w.token c.offset ∧ next = c.advance w.text.length := by
  obtain ⟨bs, start⟩ := peek_eq_some opens
  have inner : (c.advance 1).rest = bs := by
    rw [rest_advance, start]
    rfl
  have closed : (scanBody bs).ending = .closed := by
    unfold quoted at scanned
    simp only [inner] at scanned
    split at scanned
    · cases scanned
    · cases scanned
    · assumption
  obtain ⟨escaped, rest, split⟩ := scanBody_sound closed
  have nonempty : (scanBody bs).body ≠ [] := by
    intro empty
    unfold quoted at scanned
    simp only [inner, closed, empty, List.isEmpty_nil, if_true] at scanned
    cases scanned
  have whole : c.rest = (Word.quoted _ nonempty escaped).text ++ rest := by
    refine start.trans ((congrArg _ split).trans ?_)
    simp [Word.text]
  rw [quoted_word nonempty escaped whole] at scanned
  cases scanned
  exact ⟨_, ⟨rest, whole.symm⟩, fun bare => Bool.noConfusion bare, rfl, rfl⟩

theorem bare_sound {c : Cursor label} {b : UInt8} (opens : c.peek = some b)
    (bare : isBareByte b = true) :
    ∃ w : Word, w.text <+: c.rest ∧ w.EndsBefore (c.advance w.text.length).rest ∧
      c.bare = (w.token c.offset, c.advance w.text.length) := by
  obtain ⟨bs, start⟩ := peek_eq_some opens
  have nonempty : c.rest.takeWhile isBareByte ≠ [] := by
    rw [start, List.takeWhile_cons_of_pos bare]
    exact List.cons_ne_nil _ _
  have all : isBare (c.rest.takeWhile isBareByte) = true := List.all_takeWhile
  have split := List.takeWhile_append_dropWhile (p := isBareByte) (l := c.rest)
  have behind := rest_advance_append split.symm
  refine ⟨.bare _ nonempty all, List.takeWhile_prefix _, fun _ b found => ?_,
    bare_word nonempty all rfl⟩
  have stop := List.head?_dropWhile_not isBareByte c.rest
  rw [Word.text, behind] at found
  rwa [found] at stop

/-- Whatever token is read, it is a word as long as it can be, and the place behind it lies behind
its text. -/
theorem token_sound {c next : Cursor label} {t : Token} (scanned : c.token = (.ok t, next)) :
    ∃ w : Word, w.text <+: c.rest ∧ w.EndsBefore (c.advance w.text.length).rest ∧
      t = w.token c.offset ∧ next = c.advance w.text.length := by
  unfold token at scanned
  split at scanned
  · cases scanned
  next b opens =>
    split at scanned
    next quote =>
      rw [quote] at opens
      exact quoted_sound opens scanned
    split at scanned
    next bare =>
      obtain ⟨w, start, ends, word⟩ := bare_sound opens bare
      rw [word] at scanned
      cases scanned
      exact ⟨w, start, ends, rfl, rfl⟩
    · cases scanned

end Clearance.Cursor
