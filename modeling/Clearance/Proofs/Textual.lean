import Clearance.Proofs.Words

/-! Which bytes are text. Marks and structure are single bytes of ASCII, so escaping and stripping
keep text and what is none, and a label whose words stand for text is text. -/
namespace Clearance

/-- The bytes of some characters. -/
def IsText (bs : List UInt8) : Prop := ∃ cs, bs = Text.Utf8.encode cs

theorem isText_iff {bs : List UInt8} : IsText bs ↔ (Text.Utf8.decode? bs).isSome = true := by
  rw [Option.isSome_iff_exists]
  constructor
  · rintro ⟨cs, rfl⟩
    exact ⟨String.ofList cs, Text.Utf8.decode?_eq_some.mpr (Text.Utf8.bytes_ofList cs).symm⟩
  · rintro ⟨s, found⟩
    exact ⟨s.toList, Text.Utf8.decode?_eq_some.mp found⟩

theorem isText_nil : IsText [] := ⟨[], rfl⟩

theorem IsText.append {bs cs : List UInt8} (first : IsText bs) (second : IsText cs) :
    IsText (bs ++ cs) := by
  obtain ⟨bs, rfl⟩ := first
  obtain ⟨cs, rfl⟩ := second
  exact ⟨bs ++ cs, (Text.Utf8.encode_append bs cs).symm⟩

/-- What stands behind text in text is text. -/
theorem IsText.behind {bs cs : List UInt8} (whole : IsText (bs ++ cs)) (first : IsText bs) :
    IsText cs := by
  obtain ⟨bs, rfl⟩ := first
  obtain ⟨ds, split⟩ := whole
  have pieces : bs.map some ++ Text.Utf8.pieces cs = ds.map some := by
    rw [← Text.Utf8.pieces_encode_append, split, Text.Utf8.pieces_encode]
  have later : Text.Utf8.pieces cs = (ds.drop bs.length).map some := by
    rw [List.map_drop, ← pieces, List.drop_left' (List.length_map some)]
  rw [isText_iff, Text.Utf8.decode?, later, Text.Utf8.mapM_id_map_some]
  rfl

/-- A byte of ASCII begins a character, so what stands before it in text is text. -/
theorem IsText.before {bs cs : List UInt8} {b : UInt8} (whole : IsText (bs ++ b :: cs))
    (ascii : b.toNat ≤ 0x7F) : IsText bs := by
  obtain ⟨ds, split⟩ := whole
  induction ds generalizing bs with
  | nil => exact absurd split (List.append_ne_nil_of_right_ne_nil _ (List.cons_ne_nil _ _))
  | cons d ds ih =>
    rw [Text.Utf8.encode_cons] at split
    rcases List.append_eq_append_iff.mp split with ⟨as, first, rest⟩ | ⟨as, rfl, rest⟩
    · cases as with
      | nil =>
        rw [List.append_nil] at first
        exact ⟨[d], first.symm.trans (List.append_nil _).symm⟩
      | cons a as =>
        -- The byte is one of those of `d`, which then has no other.
        obtain ⟨rfl, _⟩ := List.cons.inj rest
        have member : b ∈ String.utf8EncodeChar d :=
          first ▸ List.mem_append_right bs List.mem_cons_self
        have small : d.toNat ≤ 0x7F := Nat.not_lt.mp fun large =>
          absurd (Text.Utf8.le_toNat_of_mem_utf8EncodeChar large member) (by omega)
        rw [Text.Utf8.utf8EncodeChar_ascii small] at first
        cases bs with
        | nil => exact isText_nil
        | cons c bs => exact absurd (List.cons.inj first).2 (by simp)
    · exact IsText.append ⟨[d], (List.append_nil _).symm⟩ (ih rest.symm)

/-- Bytes that may stand in an unquoted authorization are printed characters of ASCII. -/
theorem toNat_of_isBareByte {b : UInt8} (bare : isBareByte b = true) :
    0x20 ≤ b.toNat ∧ b.toNat ≤ 0x7E := by
  have printed : ∀ n < 256, isBareByte (UInt8.ofNat n) = true → 0x20 ≤ n ∧ n ≤ 0x7E := by
    decide +kernel
  have at_b := printed b.toNat b.toNat_lt
  rw [UInt8.ofNat_toNat] at at_b
  exact at_b bare

theorem toNat_le_of_isBareByte {b : UInt8} (bare : isBareByte b = true) : b.toNat ≤ 0x7F :=
  Nat.le_succ_of_le (toNat_of_isBareByte bare).2

namespace Escape

variable {α : Type} [DecidableEq α] [Marked α]

theorem strip_append_of_unescaped {xs : List α} (plain : ∀ x ∈ xs, x ≠ Marked.escape)
    (ys : List α) : strip (xs ++ ys) = xs ++ strip ys := by
  induction xs with
  | nil => rfl
  | cons x xs ih =>
    obtain ⟨first, rest⟩ := List.forall_mem_cons.mp plain
    rw [List.cons_append, strip_plain first, ih rest, List.cons_append]

/-- No byte but the first of a character is an escape mark, and that only of the mark itself. -/
theorem utf8EncodeChar_unescaped (c : Char) : ∃ b bs, String.utf8EncodeChar c = b :: bs ∧
    (∀ x ∈ bs, x ≠ escapeByte) ∧ (b = escapeByte → c = '\\') := by
  by_cases ascii : c.toNat ≤ 0x7F
  · refine ⟨_, [], Text.Utf8.utf8EncodeChar_ascii ascii, nofun, fun same => ?_⟩
    have nat := congrArg UInt8.toNat same
    rw [Text.Utf8.toNat_ofNat_lt (by omega)] at nat
    exact Char.toNat_inj.mp nat
  · have large : ∀ b ∈ String.utf8EncodeChar c, b ≠ escapeByte := by
      rintro _ member rfl
      exact absurd (Text.Utf8.le_toNat_of_mem_utf8EncodeChar (Nat.not_le.mp ascii) member)
        (by decide)
    obtain ⟨b, bs, bytes, _⟩ := Text.Utf8.front_utf8EncodeChar c []
    rw [bytes] at large
    obtain ⟨first, rest⟩ := List.forall_mem_cons.mp large
    exact ⟨b, bs, bytes, rest, fun same => absurd same first⟩

/-- Stripping takes characters, as it takes their bytes. -/
theorem encode_strip (cs : List Char) :
    Text.Utf8.encode (strip cs) = strip (Text.Utf8.encode cs) := by
  fun_induction strip cs with
  | case1 => rfl
  | case2 => rfl
  | case3 y ys ih =>
    obtain ⟨b, bs, bytes, plain, _⟩ := utf8EncodeChar_unescaped y
    -- Only the first byte of the kept character could be a mark; the others pass as they are.
    have kept := strip_kept b (bs ++ Text.Utf8.encode ys)
    rw [strip_append_of_unescaped plain, ← ih] at kept
    rw [Text.Utf8.encode_cons, Text.Utf8.encode_cons, Text.Utf8.encode_cons, bytes]
    exact kept.symm
  | case4 x xs other ih =>
    obtain ⟨b, bs, bytes, plain, first⟩ := utf8EncodeChar_unescaped x
    have whole : ∀ c ∈ b :: bs, c ≠ Marked.escape :=
      List.forall_mem_cons.mpr ⟨fun same => other (first same), plain⟩
    rw [Text.Utf8.encode_cons, Text.Utf8.encode_cons, bytes, strip_append_of_unescaped whole, ih]

end Escape

namespace Grammar

namespace Word

/-- A body is text exactly if it stands for text. -/
theorem isText_body (w : Word) : IsText w.body ↔ w.value?.isSome = true := by
  rw [Option.isSome_iff_exists]
  constructor
  · rintro ⟨cs, body⟩
    refine ⟨String.ofList (Escape.strip cs), Text.Utf8.decode?_eq_some.mpr ?_⟩
    rw [body, ← Escape.encode_strip, Text.Utf8.bytes_ofList]
  · rintro ⟨v, text⟩
    exact ⟨Escape.escape v.toList, by rw [w.body_eq text, Text.Utf8.bytes, Escape.encode_escape]⟩

theorem isText_text {w : Word} (body : IsText w.body) : IsText w.text := by
  have quote : IsText [quoteByte] := ⟨['"'], rfl⟩
  cases w with
  | bare => exact body
  | quoted => exact (quote.append body).append quote

end Word

theorem isText_connective (op : Connective) : IsText [op.byte] :=
  ⟨[op.symbol], by cases op <;> rfl⟩

theorem Word.text_begins (w : Word) : ∃ b bs, w.text = b :: bs ∧ b.toNat ≤ 0x7F := by
  cases w with
  | quoted => exact ⟨_, _, rfl, by decide⟩
  | bare bytes nonempty all =>
    obtain ⟨b, bs, rfl⟩ := List.exists_cons_of_ne_nil nonempty
    exact ⟨b, bs, rfl, toNat_le_of_isBareByte (List.all_eq_true.mp all b List.mem_cons_self)⟩

mutual

/-- An expression begins with a byte of ASCII. -/
theorem Expression.text_begins : ∀ x : Expression, ∃ b bs, x.text = b :: bs ∧ b.toNat ≤ 0x7F
  | .single t => t.text_begins
  | .group op first others => by
    obtain ⟨b, bs, text, ascii⟩ := first.text_begins
    exact ⟨b, bs ++ others.text op, by rw [Expression.text, text]; rfl, ascii⟩

theorem Term.text_begins : ∀ t : Term, ∃ b bs, t.text = b :: bs ∧ b.toNat ≤ 0x7F
  | .word w => w.text_begins
  | .enclosed _ => ⟨_, _, rfl, by decide⟩

end

mutual

/-- An expression is text if its words are. -/
theorem Expression.isText_text : ∀ {x : Expression}, (∀ w ∈ x.words, IsText w.body) →
    IsText x.text
  | .single t, words => t.isText_text words
  | .group op first others, words => by
    obtain ⟨before, behind⟩ := List.forall_mem_append.mp words
    exact (first.isText_text before).append (others.isText_text op behind)

theorem Term.isText_text : ∀ (t : Term), (∀ w ∈ t.words, IsText w.body) → IsText t.text
  | .word w, words => Word.isText_text (words w List.mem_cons_self)
  | .enclosed x, words => by
    have opening : IsText [openByte] := ⟨['('], rfl⟩
    have closing : IsText [closeByte] := ⟨[')'], rfl⟩
    exact (opening.append (x.isText_text words)).append closing

theorem Members.isText_text (op : Connective) : ∀ (ms : Members),
    (∀ w ∈ ms.words, IsText w.body) → IsText (ms.text op)
  | .last t, words => (isText_connective op).append (t.isText_text words)
  | .more t others, words => by
    obtain ⟨before, behind⟩ := List.forall_mem_append.mp words
    exact ((isText_connective op).append (t.isText_text before)).append
      (others.isText_text op behind)

end

theorem Expression.isText_of_values {x : Expression}
    (values : ∀ w ∈ x.words, w.value? = some w.value) : IsText x.text := by
  refine x.isText_text fun w member => ?_
  rw [w.isText_body, values w member]
  rfl

end Grammar

end Clearance
