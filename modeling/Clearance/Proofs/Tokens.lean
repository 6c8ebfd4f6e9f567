import Clearance.Proofs.Scanning
import Clearance.Proofs.Textual

/-! What a scanned token means. The scan of a label, the value of a token and the spelling of values
each follow the rule of escaping in their own way, and agree: a text between quotes is scanned as
one token exactly if it unescapes, and a token stands for what its text is a spelling of. -/
namespace Clearance

open Text.Utf8

namespace Grammar.Word

variable {w : Word} {v : String}

theorem isText_body_of_text (text : IsText w.text) : IsText w.body := by
  cases w with
  | bare => exact text
  | quoted body _ _ =>
    have split : IsText ([quoteByte] ++ (body ++ [quoteByte])) := text
    have quote : IsText [quoteByte] := ⟨['"'], rfl⟩
    exact (split.behind quote).before (by decide)

theorem exists_value_of_text (text : IsText w.text) : ∃ v, w.value? = some v :=
  Option.isSome_iff_exists.mp (w.isText_body.mp (isText_body_of_text text))

/-- A body is the escaped spelling of what the word stands for. -/
theorem unescape_body (known : w.value? = some v) {body : String} (spells : bytes body = w.body) :
    Spelling.unescape body = .ok v := by
  rw [w.body_eq known, ← Spelling.bytes_escape] at spells
  exact Spelling.unescape_eq_ok_iff.mpr (bytes_injective spells)

/-- A word stands for what its text is a spelling of. -/
theorem unquote_text (known : w.value? = some v) {text : String} (spells : bytes text = w.text) :
    Spelling.unquote text = .ok v := by
  cases w with
  | bare bs nonempty all =>
    have content : bytes v = bs := by
      rw [← strip_of_bare all]
      exact (decode?_eq_some.mp known).symm
    obtain rfl : text = v := bytes_injective (spells.trans content.symm)
    have bare : Spelling.isBareValue text = true := (congrArg isBare content).trans all
    exact Spelling.unquote_eq_self (value_ne_empty known) (Spelling.toList_ne_of_isBareValue bare)
  | quoted body nonempty escaped =>
    have enclosed : (quoted body nonempty escaped).text = bytes (Spelling.enclose v) := by
      rw [Spelling.bytes_enclose, ← body_eq known]
      rfl
    rw [bytes_injective (spells.trans enclosed)]
    exact Spelling.unquote_enclose (value_ne_empty known)

/-- The texts between quotes that are words are those that unescape to something. -/
theorem exists_text_iff (b : String) : (∃ w : Word, w.text = bytes ("\"" ++ b ++ "\"")) ↔
    b ≠ "" ∧ ∃ v, Spelling.unescape b = .ok v := by
  have split : bytes ("\"" ++ b ++ "\"") = quoteByte :: (bytes b ++ [quoteByte]) := by
    rw [bytes_append, bytes_append]
    rfl
  rw [split]
  constructor
  · rintro ⟨w, text⟩
    cases w with
    | bare bs nonempty all =>
      have begins : bs ++ [] ≠ quoteByte :: (bytes b ++ [quoteByte]) :=
        bare_append_ne nonempty all isBareByte_quote
      rw [List.append_nil] at begins
      exact absurd text begins
    | quoted body nonempty escaped =>
      have same : body = bytes b := (List.append_left_inj [quoteByte]).mp (List.cons.inj text).2
      refine ⟨?_, ?_⟩
      · rintro rfl
        exact nonempty same
      · have textual : IsText (Word.quoted body nonempty escaped).body := ⟨b.toList, same⟩
        obtain ⟨v, known⟩ := Option.isSome_iff_exists.mp ((isText_body _).mp textual)
        exact ⟨v, unescape_body known same.symm⟩
  · rintro ⟨nonempty, v, ok⟩
    rw [Spelling.unescape_eq_ok_iff.mp ok] at nonempty ⊢
    have body := Spelling.bytes_escape v
    have full : bytes (Spelling.escape v) ≠ [] := fun empty => nonempty (bytes_injective empty)
    rw [body] at full ⊢
    exact ⟨.quoted _ full (Escape.escaped_escape _), rfl⟩

end Grammar.Word

open Grammar

/-- The first token of a label is all of it exactly if the label is a word. -/
theorem Cursor.token_covers_iff {label : List UInt8} :
    (∃ t next, (Cursor.start label).token = (.ok t, next) ∧ t.span = ⟨0, label.length⟩) ↔
      ∃ w : Word, w.text = label := by
  constructor
  · rintro ⟨t, next, scanned, covers⟩
    obtain ⟨w, stands, _, rfl, _⟩ := token_sound scanned
    have length : 0 + w.text.length = label.length := congrArg Span.stop covers
    rw [Nat.zero_add] at length
    exact ⟨w, stands.eq_of_length length⟩
  · rintro ⟨w, rfl⟩
    have scanned := token_complete (c := .start w.text) endsExpression_nil.endsTerm
      (List.append_nil w.text).symm
    refine ⟨_, _, scanned, ?_⟩
    show Span.mk 0 (0 + w.text.length) = _
    rw [Nat.zero_add]

/-- How a token is read: its mark for escapes is right, and if its bytes are text they spell its
value, whether that is found by way of the spelling, of the body or of what is left of the body
without its escapes. -/
structure Token.ReadRight (t : Token) : Prop where
  escapes_iff : t.escapes = true ↔ escapeByte ∈ t.body
  value_eq {text : String} (textual : bytes text = t.text) :
    ∃ v body, t.value = .ok v ∧ Spelling.unquote text = .ok v ∧
      bytes body = t.body ∧ Spelling.unescape body = .ok v ∧
      Escape.strip t.body = bytes v ∧ (t.escapes = false → t.body = bytes v)

theorem Grammar.Word.readRight_token (w : Word) (offset : Nat) : (w.token offset).ReadRight where
  escapes_iff := List.contains_iff_mem
  value_eq {text} textual := by
    obtain ⟨v, known⟩ := exists_value_of_text ⟨text.toList, textual.symm⟩
    have content : Escape.strip w.body = bytes v := decode?_eq_some.mp known
    have body : bytes (Spelling.escape v) = w.body :=
      (Spelling.bytes_escape v).trans (w.body_eq known).symm
    refine ⟨v, Spelling.escape v, ?_, unquote_text known textual, body, unescape_body known body,
      content, fun unescaped => ?_⟩
    · rw [w.value_token, known]
    · have absent : escapeByte ∉ w.body := fun member =>
        Bool.false_ne_true (unescaped.symm.trans (List.contains_iff_mem.mpr member))
      exact (Escape.strip_of_unescaped absent).symm.trans content

/-- The scan of a token and the spelling of values agree. A text between quotes is scanned as one
token exactly if there is some and it unescapes, and every token of a label, wherever it stands, is
read as it is spelled. -/
theorem Cursor.scan_agrees (b : String) :
    ((∃ t next, (Cursor.start (bytes ("\"" ++ b ++ "\""))).token = (.ok t, next) ∧
        t.span = ⟨0, (bytes ("\"" ++ b ++ "\"")).length⟩) ↔
      b ≠ "" ∧ ∃ v, Spelling.unescape b = .ok v) ∧
    ∀ {label : List UInt8} {c next : Cursor label} {t : Token}, c.token = (.ok t, next) →
      t.ReadRight := by
  refine ⟨Cursor.token_covers_iff.trans (Word.exists_text_iff b), ?_⟩
  intro label c next t scanned
  obtain ⟨w, _, _, rfl, _⟩ := token_sound scanned
  exact w.readRight_token c.offset

/-- The token `"a\""` between two bytes that are no text. -/
theorem Cursor.scan_agrees_within :
    let label : List UInt8 := [0xFF, 0x22, 0x61, 0x5C, 0x22, 0x22, 0xC3]
    let c : Cursor label := (Cursor.start label).advance 1
    let t : Token :=
      { text := [0x22, 0x61, 0x5C, 0x22, 0x22], body := [0x61, 0x5C, 0x22], span := ⟨1, 6⟩,
        quoted := true, escapes := true }
    c.token = (.ok t, c.advance 5) ∧ t.ReadRight ∧ bytes "\"a\\\"\"" = t.text ∧
      ((∃ t next, (Cursor.start (bytes "\"a\\\"\"")).token = (.ok t, next) ∧
        t.span = ⟨0, (bytes "\"a\\\"\"").length⟩) ↔
      "a\\\"" ≠ "" ∧ ∃ v, Spelling.unescape "a\\\"" = .ok v) := by
  intro label c t
  have scanned : c.token = (.ok t, c.advance 5) := rfl
  obtain ⟨whole, each⟩ := Cursor.scan_agrees "a\\\""
  exact ⟨scanned, each scanned, by decide, whole⟩

end Clearance
