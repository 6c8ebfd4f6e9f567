import Clearance.Escape
import Clearance.Text.Utf8.Lemmas

/-! Escaped text, as a judgment of its own, and its passage to bytes. Escaping and stripping
are inverse on it, and unescaping takes it and nothing else. Both commute with the encoding of
characters, because a mark is one byte and no byte of another character is a mark. -/
namespace Clearance.Escape

variable {α : Type} [DecidableEq α] [Marked α]

/-- What may stand between two quotes: every escape mark keeps the mark behind it, and no
quote stands without one. -/
inductive Escaped : List α → Prop where
  | nil : Escaped []
  | plain {x : α} {xs : List α} : isMark x = false → Escaped xs → Escaped (x :: xs)
  | kept {x : α} {xs : List α} : isMark x = true → Escaped xs →
      Escaped (Marked.escape :: x :: xs)

theorem isMark_iff {x : α} : isMark x = true ↔ x = Marked.quote ∨ x = Marked.escape := by
  simp [isMark]

theorem isMark_eq_false {x : α} : isMark x = false ↔ x ≠ Marked.quote ∧ x ≠ Marked.escape := by
  simp [isMark]

theorem isMark_escape : isMark (Marked.escape : α) = true := by
  simp [isMark]

theorem escape_cons (x : α) (xs : List α) :
    escape (x :: xs) = (if isMark x then [Marked.escape, x] else [x]) ++ escape xs := rfl

theorem escape_append (xs ys : List α) : escape (xs ++ ys) = escape xs ++ escape ys :=
  List.flatMap_append

theorem escaped_escape (xs : List α) : Escaped (escape xs) := by
  induction xs with
  | nil => exact .nil
  | cons x xs ih =>
    rw [escape_cons]
    cases hx : isMark x with
    | true => exact .kept hx ih
    | false => exact .plain hx ih

theorem Escaped.append {xs ys : List α} (first : Escaped xs) (second : Escaped ys) :
    Escaped (xs ++ ys) := by
  induction first with
  | nil => exact second
  | plain hx _ ih => exact .plain hx ih
  | kept hx _ ih => exact .kept hx ih

/-- Up to a quote that no escape keeps, each escape keeps a mark. -/
theorem Escaped.isMark_behind {xs ys rest rest' : List α} {x : α} (hx : Escaped xs)
    (hy : Escaped ys)
    (same : xs ++ Marked.escape :: x :: rest = ys ++ Marked.quote :: rest') : isMark x = true := by
  induction hx generalizing ys with
  | nil =>
    cases hy with
    | nil => exact absurd (List.cons.inj same).1.symm Marked.quote_ne_escape
    | plain hy _ =>
      obtain ⟨rfl, _⟩ := List.cons.inj same
      simp [isMark_escape] at hy
    | kept hy _ =>
      obtain ⟨rfl, _⟩ := List.cons.inj (List.cons.inj same).2
      exact hy
  | plain hx _ ih =>
    cases hy with
    | nil =>
      obtain ⟨rfl, _⟩ := List.cons.inj same
      simp [isMark] at hx
    | plain _ escaped => exact ih escaped (List.cons.inj same).2
    | kept _ _ =>
      obtain ⟨rfl, _⟩ := List.cons.inj same
      simp [isMark_escape] at hx
  | kept _ _ ih =>
    cases hy with
    | nil => exact absurd (List.cons.inj same).1.symm Marked.quote_ne_escape
    | plain hy _ =>
      obtain ⟨rfl, _⟩ := List.cons.inj same
      simp [isMark_escape] at hy
    | kept _ escaped => exact ih escaped (List.cons.inj (List.cons.inj same).2).2

/-- The first quote that no escape keeps is found in one place only. -/
theorem Escaped.append_quote_unique {xs ys rest rest' : List α} (hx : Escaped xs) (hy : Escaped ys)
    (same : xs ++ Marked.quote :: rest = ys ++ Marked.quote :: rest') : xs = ys ∧ rest = rest' := by
  have quoteMark : isMark (Marked.quote : α) = true := isMark_iff.mpr (Or.inl rfl)
  have apart : (Marked.quote : α) ≠ Marked.escape := Marked.quote_ne_escape
  induction hx generalizing ys with
  | nil =>
    cases hy with
    | nil => exact ⟨rfl, (List.cons.inj same).2⟩
    | plain hy _ =>
      obtain ⟨rfl, _⟩ := List.cons.inj same
      simp [quoteMark] at hy
    | kept _ _ => exact absurd (List.cons.inj same).1 apart
  | @plain x xs hx _ ih =>
    cases hy with
    | nil =>
      obtain ⟨rfl, _⟩ := List.cons.inj same
      simp [quoteMark] at hx
    | plain _ escaped =>
      obtain ⟨rfl, tails⟩ := List.cons.inj same
      obtain ⟨rfl, rfl⟩ := ih escaped tails
      exact ⟨rfl, rfl⟩
    | kept _ _ =>
      obtain ⟨rfl, _⟩ := List.cons.inj same
      simp [isMark_escape] at hx
  | @kept x xs _ _ ih =>
    cases hy with
    | nil => exact absurd (List.cons.inj same).1.symm apart
    | plain hy _ =>
      obtain ⟨rfl, _⟩ := List.cons.inj same
      simp [isMark_escape] at hy
    | kept _ escaped =>
      obtain ⟨rfl, tails⟩ := List.cons.inj (List.cons.inj same).2
      obtain ⟨rfl, rfl⟩ := ih escaped tails
      exact ⟨rfl, rfl⟩

theorem strip_plain {x : α} (hx : x ≠ Marked.escape) (xs : List α) :
    strip (x :: xs) = x :: strip xs := by
  rw [strip.eq_def]
  simp only [if_neg hx]

theorem strip_kept (x : α) (xs : List α) : strip (Marked.escape :: x :: xs) = x :: strip xs := by
  rw [strip.eq_def]
  simp only [if_true]

theorem strip_escape (xs : List α) : strip (escape xs) = xs := by
  induction xs with
  | nil => rfl
  | cons x xs ih =>
    rw [escape_cons]
    cases hx : isMark x with
    | true =>
      simp only [if_true, List.cons_append, List.nil_append]
      rw [strip_kept, ih]
    | false =>
      simp only [Bool.false_eq_true, if_false, List.cons_append, List.nil_append]
      rw [strip_plain (isMark_eq_false.mp hx).2, ih]

theorem escape_injective {xs ys : List α} (same : escape xs = escape ys) : xs = ys := by
  rw [← strip_escape xs, same, strip_escape]

/-- Escaped text has one spelling: it is recovered from what it stands for. -/
theorem escape_strip {xs : List α} (escaped : Escaped xs) : escape (strip xs) = xs := by
  induction escaped with
  | nil => rfl
  | plain hx _ ih =>
    rw [strip_plain (isMark_eq_false.mp hx).2, escape_cons, ih]
    simp [hx]
  | kept hx _ ih =>
    rw [strip_kept, escape_cons, ih]
    simp [hx]

theorem escape_of_unmarked {xs : List α} (h : ∀ x ∈ xs, isMark x = false) : escape xs = xs := by
  induction xs with
  | nil => rfl
  | cons x xs ih =>
    rw [escape_cons, ih fun y hy => h y (List.mem_cons_of_mem _ hy)]
    simp [h x List.mem_cons_self]

theorem strip_of_unescaped {xs : List α} (h : Marked.escape ∉ xs) : strip xs = xs := by
  induction xs with
  | nil => rfl
  | cons x xs ih =>
    have hx := List.ne_of_not_mem_cons h
    rw [strip_plain hx.symm, ih (List.not_mem_of_not_mem_cons h)]

/-- A mark takes two places and all else one. -/
theorem length_escape (xs : List α) : (escape xs).length = xs.length + xs.countP isMark := by
  induction xs with
  | nil => rfl
  | cons x xs ih =>
    rw [escape_cons, List.length_append, ih, List.countP_cons, List.length_cons]
    cases isMark x <;> simp <;> omega

/-- Escape marks come before marks, so in escaped text marks come in pairs. -/
theorem Escaped.countP_isMark {xs : List α} (escaped : Escaped xs) :
    xs.countP isMark % 2 = 0 := by
  induction escaped with
  | nil => rfl
  | plain hx _ ih => simpa [hx] using ih
  | kept hx _ ih =>
    simp only [List.countP_cons, hx, isMark_escape, if_true]
    omega

theorem unescape_plain {x : α} (hx : isMark x = false) (xs : List α) :
    unescape (x :: xs) = (x :: ·) <$> unescape xs := by
  obtain ⟨quote, escape⟩ := isMark_eq_false.mp hx
  rw [unescape.eq_def]
  simp only [if_neg quote, if_neg escape]

theorem unescape_kept {x : α} (hx : isMark x = true) (xs : List α) :
    unescape (Marked.escape :: x :: xs) = (x :: ·) <$> unescape xs := by
  rw [unescape.eq_def]
  simp only [if_true, hx]

theorem unescape_escape (xs : List α) : unescape (escape xs) = .ok xs := by
  induction xs with
  | nil => rfl
  | cons x xs ih =>
    rw [escape_cons]
    cases hx : isMark x with
    | true => exact (unescape_kept hx _).trans (congrArg ((x :: ·) <$> ·) ih)
    | false => exact (unescape_plain hx _).trans (congrArg ((x :: ·) <$> ·) ih)

theorem escaped_of_unescape {xs ys : List α} (ok : unescape xs = .ok ys) : Escaped xs := by
  fun_induction unescape xs generalizing ys with
  | case1 => exact .nil
  | case2 => cases ok
  | case3 y xs mark ih =>
    cases inner : unescape xs with
    | ok zs => exact .kept mark (ih inner)
    | error =>
      rw [inner] at ok
      cases ok
  | case4 => cases ok
  | case5 => cases ok
  | case6 x xs escape quote ih =>
    cases inner : unescape xs with
    | ok zs => exact .plain (isMark_eq_false.mpr ⟨quote, escape⟩) (ih inner)
    | error =>
      rw [inner] at ok
      cases ok

/-- What unescapes is what escaping writes. -/
theorem unescape_eq_ok_iff {xs ys : List α} : unescape xs = .ok ys ↔ xs = escape ys := by
  constructor
  · intro ok
    have same := escape_strip (escaped_of_unescape ok)
    rw [← same, unescape_escape] at ok
    cases ok
    exact same.symm
  · rintro rfl
    exact unescape_escape ys

theorem isMark_ofNat {c : Char} (ascii : c.toNat ≤ 0x7F) :
    isMark (UInt8.ofNat c.toNat) = isMark c := by
  have byte : (UInt8.ofNat c.toNat).toNat = c.toNat := Text.Utf8.toNat_ofNat_lt (by omega)
  have one : ∀ d : Char, d.toNat ≤ 0x7F → (UInt8.ofNat c.toNat = UInt8.ofNat d.toNat ↔ c = d) := by
    intro d small
    constructor
    · intro same
      have nat := congrArg UInt8.toNat same
      rw [byte, Text.Utf8.toNat_ofNat_lt (by omega)] at nat
      exact Char.toNat_inj.mp nat
    · rintro rfl
      rfl
  rw [Bool.eq_iff_iff, isMark_iff, isMark_iff]
  exact or_congr (one '"' (by decide)) (one '\\' (by decide))

/-- A mark is a character of one byte, and a byte of a longer character is no mark. -/
theorem encode_escape_char (c : Char) :
    Text.Utf8.encode (if isMark c then [Marked.escape, c] else [c]) =
      escape (String.utf8EncodeChar c) := by
  by_cases ascii : c.toNat ≤ 0x7F
  · have mark := isMark_ofNat ascii
    rw [Text.Utf8.utf8EncodeChar_ascii ascii, escape_cons, mark]
    cases hc : isMark c with
    | true =>
      simp only [if_true, Text.Utf8.encode, List.flatMap_cons, List.flatMap_nil,
        Text.Utf8.utf8EncodeChar_ascii ascii]
      rfl
    | false =>
      simp only [Bool.false_eq_true, if_false, Text.Utf8.encode, List.flatMap_cons,
        List.flatMap_nil, Text.Utf8.utf8EncodeChar_ascii ascii]
      rfl
  · have plain : isMark c = false := by
      rw [isMark_eq_false]
      constructor <;> rintro rfl <;> exact ascii (by decide)
    have bytes : ∀ b ∈ String.utf8EncodeChar c, isMark b = false := by
      intro b hb
      have large := Text.Utf8.le_toNat_of_mem_utf8EncodeChar (Nat.not_le.mp ascii) hb
      rw [isMark_eq_false]
      constructor <;> rintro rfl <;> exact absurd large (by decide)
    rw [escape_of_unmarked bytes, plain]
    simp [Text.Utf8.encode]

theorem encode_escape (cs : List Char) :
    Text.Utf8.encode (escape cs) = escape (Text.Utf8.encode cs) := by
  induction cs with
  | nil => rfl
  | cons c cs ih =>
    have split : Text.Utf8.encode (c :: cs) = String.utf8EncodeChar c ++ Text.Utf8.encode cs := rfl
    rw [escape_cons, split, escape_append, ← encode_escape_char, ← ih]
    exact List.flatMap_append

end Clearance.Escape
