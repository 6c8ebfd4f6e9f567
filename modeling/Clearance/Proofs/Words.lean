import Clearance.Proofs.Grammar
import Clearance.Proofs.Quoting

/-! What the words of a label stand for. A body is the one escaped spelling of its value, and each
value but the empty one has a word. -/
namespace Clearance.Grammar.Word

/-- The value that a word stands for, if it is text. -/
def value? (w : Word) : Option String := Text.Utf8.decode? (Escape.strip w.body)

/-- The value that a word stands for, where it is text. -/
def value (w : Word) : String := w.value?.getD ""

theorem isMark_of_bare {bytes : List UInt8} (all : isBare bytes = true) :
    ∀ b ∈ bytes, Escape.isMark b = false := by
  intro b member
  have bare : isBareByte b = true := List.all_eq_true.mp all b member
  exact Escape.isMark_eq_false.mpr
    ⟨isBareByte_ne bare isBareByte_quote, isBareByte_ne bare isBareByte_escape⟩

theorem strip_of_bare {bytes : List UInt8} (all : isBare bytes = true) :
    Escape.strip bytes = bytes := by
  rw [← Escape.escape_of_unmarked (isMark_of_bare all), Escape.strip_escape,
    Escape.escape_of_unmarked (isMark_of_bare all)]

/-- A body is escaped text, bare or not, so it is the one spelling of its value. -/
theorem body_eq {w : Word} {v : String} (text : w.value? = some v) :
    w.body = Escape.escape (Text.Utf8.bytes v) := by
  have content : Escape.strip w.body = Text.Utf8.bytes v := Text.Utf8.decode?_eq_some.mp text
  rw [← content]
  cases w with
  | bare bytes _ all =>
    rw [body, strip_of_bare all, Escape.escape_of_unmarked (isMark_of_bare all)]
  | quoted body _ escaped => exact (Escape.escape_strip escaped).symm

theorem body_ne_nil (w : Word) : w.body ≠ [] := by
  cases w with
  | bare _ nonempty _ => exact nonempty
  | quoted _ nonempty _ => exact nonempty

theorem value_ne_empty {w : Word} {v : String} (text : w.value? = some v) : v ≠ "" := by
  rintro rfl
  exact w.body_ne_nil (w.body_eq text)

/-- The word that is written for a value. -/
def spell (v : String) (nonempty : v ≠ "") : Word :=
  have bytes : Text.Utf8.bytes v ≠ [] := fun empty => nonempty (Text.Utf8.bytes_injective empty)
  if bare : isBare (Text.Utf8.bytes v) = true then .bare (Text.Utf8.bytes v) bytes bare
  else
    .quoted (Escape.escape (Text.Utf8.bytes v))
      (fun empty => bytes (Escape.escape_injective empty)) (Escape.escaped_escape _)

theorem value?_spell (v : String) (nonempty : v ≠ "") :
    (spell v nonempty).value? = some v := by
  rw [spell, value?, Text.Utf8.decode?_eq_some]
  split
  next bare => exact strip_of_bare bare
  next => exact Escape.strip_escape _

theorem value_spell (v : String) (nonempty : v ≠ "") : (spell v nonempty).value = v := by
  rw [value, value?_spell]
  rfl

theorem text_spell (v : String) (nonempty : v ≠ "") :
    (spell v nonempty).text = Text.Utf8.bytes (Spelling.write v) := by
  rw [spell, Spelling.write, Spelling.isBareValue]
  split
  · rfl
  · exact (Spelling.bytes_enclose v).symm

/-- A word as it is written for its value. -/
def Spelled (w : Word) : Prop := ∃ (v : String) (nonempty : v ≠ ""), w = spell v nonempty

def charset (w : Word) : Charset := if w.isQuoted then .any else .basic

theorem content_token (w : Word) (offset : Nat) :
    (w.token offset).content = Escape.strip w.body := by
  rw [Token.content]
  cases escapes : w.body.contains escapeByte with
  | true => simp only [token, escapes, if_true]
  | false =>
    have unescaped : escapeByte ∉ w.body := by
      intro member
      rw [List.contains_iff_mem.mpr member] at escapes
      cases escapes
    simp only [token, escapes, Bool.false_eq_true, if_false]
    exact (Escape.strip_of_unescaped unescaped).symm

theorem value_token (w : Word) (offset : Nat) : (w.token offset).value =
    match w.value? with
    | some v => .ok v
    | none => .error (.refused (Text.Utf8.decodeLossy (Escape.strip w.body))) := by
  rw [Token.value, content_token]
  rfl

theorem value?_of_token {w : Word} {offset : Nat} {v : String}
    (known : (w.token offset).value = .ok v) : w.value? = some v := by
  rw [w.value_token] at known
  cases text : w.value? with
  | some u =>
    rw [text] at known
    cases known
    rfl
  | none =>
    rw [text] at known
    cases known

end Clearance.Grammar.Word
