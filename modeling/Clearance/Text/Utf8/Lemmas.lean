import Clearance.Text.Utf8

/-! Decoding undoes encoding: a reading takes exactly the bytes of a character from the front
(`front_utf8EncodeChar`, `eq_append_of_front`), and bytes decode to a string exactly if they
are its bytes (`decode?_eq_some`). -/
namespace Clearance.Text.Utf8

theorem toNat_ofNat_lt {n : Nat} (h : n < 256) : (UInt8.ofNat n).toNat = n := by
  simp [Nat.mod_eq_of_lt h]

theorem utf8EncodeChar_ascii {c : Char} (h : c.toNat ≤ 0x7F) :
    String.utf8EncodeChar c = [UInt8.ofNat c.toNat] := by
  unfold String.utf8EncodeChar
  exact if_pos h

/-- No byte of a longer character could be a character of its own. -/
theorem le_toNat_of_mem_utf8EncodeChar {c : Char} (h : 0x7F < c.toNat) {b : UInt8}
    (hb : b ∈ String.utf8EncodeChar c) : 0x80 ≤ b.toNat := by
  have byte : ∀ n, n < 256 → 0x80 ≤ n → 0x80 ≤ (UInt8.ofNat n).toNat := by
    intro n small large
    rwa [toNat_ofNat_lt small]
  unfold String.utf8EncodeChar at hb
  simp only [show c.val.toNat = c.toNat from rfl, if_neg (Nat.not_le.mpr h)] at hb
  split at hb
  · simp only [List.mem_cons, List.not_mem_nil, or_false] at hb
    rcases hb with rfl | rfl <;> exact byte _ (by omega) (by omega)
  split at hb
  · simp only [List.mem_cons, List.not_mem_nil, or_false] at hb
    rcases hb with rfl | rfl | rfl <;> exact byte _ (by omega) (by omega)
  · simp only [List.mem_cons, List.not_mem_nil, or_false] at hb
    rcases hb with rfl | rfl | rfl | rfl <;> exact byte _ (by omega) (by omega)

theorem front_utf8EncodeChar (c : Char) (bs : List UInt8) :
    ∃ b r, String.utf8EncodeChar c = b :: r ∧ front b (r ++ bs) = .char c bs := by
  have hv : c.toNat < 0xD800 ∨ 0xDFFF < c.toNat ∧ c.toNat < 0x110000 := c.valid
  have hc : Char.ofNat c.toNat = c := Char.ofNat_toNat c
  unfold String.utf8EncodeChar
  simp only [show c.val.toNat = c.toNat from rfl]
  generalize c.toNat = v at *
  have byte : ∀ n, n < 256 → (UInt8.ofNat n).toNat = n := fun n h => toNat_ofNat_lt h
  have e1 := byte (v % 64 + 128) (by omega)
  have e2 := byte (v / 64 % 64 + 128) (by omega)
  have e3 := byte (v / 4096 % 64 + 128) (by omega)
  split
  next h =>
    refine ⟨_, _, rfl, ?_⟩
    simp only [front, lead?, byte v (by omega), h, ↓reduceIte, follow, List.nil_append, hc]
  split
  next h1 h =>
    refine ⟨_, _, rfl, ?_⟩
    have l : lead? (UInt8.ofNat (v / 64 % 32 + 192)) = some (v / 64, [(0x80, 0xBF)]) := by
      unfold lead?
      simp only [byte (v / 64 % 32 + 192) (by omega)]
      rw [if_neg (by omega), if_pos (by omega)]
      congr 2; omega
    simp only [front, l, List.cons_append, List.nil_append, follow, e1]
    rw [if_pos (by omega), show v / 64 * 64 + (v % 64 + 128) % 64 = v by omega, hc]
  split
  next h1 h2 h =>
    refine ⟨_, _, rfl, ?_⟩
    have l : ∃ low high, lead? (UInt8.ofNat (v / 4096 % 16 + 224)) =
        some (v / 4096, [(low, high), (0x80, 0xBF)]) ∧
        low ≤ v / 64 % 64 + 128 ∧ v / 64 % 64 + 128 ≤ high := by
      unfold lead?
      simp only [byte (v / 4096 % 16 + 224) (by omega)]
      rw [if_neg (by omega), if_neg (by omega)]
      split
      next => exact ⟨0xA0, 0xBF, by congr 2; omega, by omega, by omega⟩
      split
      next => exact ⟨0x80, 0x9F, by congr 2; omega, by omega, by omega⟩
      rw [if_pos (by omega)]
      exact ⟨0x80, 0xBF, by congr 2; omega, by omega, by omega⟩
    obtain ⟨low, high, l, hl, hh⟩ := l
    simp only [front, l, List.cons_append, List.nil_append, follow, e1, e2]
    rw [if_pos ⟨hl, hh⟩, if_pos (by omega),
      show (v / 4096 * 64 + (v / 64 % 64 + 128) % 64) * 64 + (v % 64 + 128) % 64 = v by omega, hc]
  next h1 h2 h =>
    refine ⟨_, _, rfl, ?_⟩
    have l : ∃ low high, lead? (UInt8.ofNat (v / 262144 % 8 + 240)) =
        some (v / 262144, [(low, high), (0x80, 0xBF), (0x80, 0xBF)]) ∧
        low ≤ v / 4096 % 64 + 128 ∧ v / 4096 % 64 + 128 ≤ high := by
      unfold lead?
      simp only [byte (v / 262144 % 8 + 240) (by omega)]
      iterate 5 rw [if_neg (by omega)]
      split
      next => exact ⟨0x90, 0xBF, by congr 2; omega, by omega, by omega⟩
      split
      next => exact ⟨0x80, 0xBF, by congr 2; omega, by omega, by omega⟩
      rw [if_pos (by omega)]
      exact ⟨0x80, 0x8F, by congr 2; omega, by omega, by omega⟩
    obtain ⟨low, high, l, hl, hh⟩ := l
    simp only [front, l, List.cons_append, List.nil_append, follow, e1, e2, e3]
    rw [if_pos ⟨hl, hh⟩, if_pos (by omega), if_pos (by omega),
      show ((v / 262144 * 64 + (v / 4096 % 64 + 128) % 64) * 64 + (v / 64 % 64 + 128) % 64) * 64 +
        (v % 64 + 128) % 64 = v by omega, hc]

theorem ofNat_eq {n : Nat} {b : UInt8} (h : n = b.toNat) : UInt8.ofNat n = b := by
  rw [h, UInt8.ofNat_toNat]

theorem toNat_ofNat_of_valid {v : Nat} (hv : v < 0xD800 ∨ 0xDFFF < v ∧ v < 0x110000) :
    (Char.ofNat v).toNat = v := by
  have valid : v.isValidChar := hv
  rw [Char.ofNat, dif_pos valid]
  rfl

theorem follow_cons_eq_char {value low high : Nat} {ranges : List (Nat × Nat)} {bs : List UInt8}
    {c : Char} {rest : List UInt8} (h : follow value ((low, high) :: ranges) bs = .char c rest) :
    ∃ b tail, bs = b :: tail ∧ low ≤ b.toNat ∧ b.toNat ≤ high ∧
      follow (value * 64 + b.toNat % 64) ranges tail = .char c rest := by
  cases bs with
  | nil => simp [follow] at h
  | cons b tail =>
    simp only [follow] at h
    split at h
    next hr => exact ⟨b, tail, rfl, hr.1, hr.2, h⟩
    next => simp at h

/-- Bytes are those of a code point if each has its share of the bits. -/
theorem utf8EncodeChar_two {a b : UInt8} {v : Nat} (hv : 0x7F < v ∧ v ≤ 0x7FF)
    (ha : v / 64 + 192 = a.toNat) (hb : v % 64 + 128 = b.toNat) :
    String.utf8EncodeChar (Char.ofNat v) = [a, b] := by
  have := toNat_ofNat_of_valid (v := v) (by omega)
  unfold String.utf8EncodeChar
  simp only [show (Char.ofNat v).val.toNat = v from this]
  rw [if_neg (by omega), if_pos (by omega), ofNat_eq (b := a) (by omega), ofNat_eq hb]

theorem utf8EncodeChar_three {a b c : UInt8} {v : Nat}
    (hv : 0x7FF < v ∧ v < 0xD800 ∨ 0xDFFF < v ∧ v ≤ 0xFFFF)
    (ha : v / 4096 + 224 = a.toNat) (hb : v / 64 % 64 + 128 = b.toNat)
    (hc : v % 64 + 128 = c.toNat) : String.utf8EncodeChar (Char.ofNat v) = [a, b, c] := by
  have := toNat_ofNat_of_valid (v := v) (by omega)
  unfold String.utf8EncodeChar
  simp only [show (Char.ofNat v).val.toNat = v from this]
  rw [if_neg (by omega), if_neg (by omega), if_pos (by omega), ofNat_eq (b := a) (by omega),
    ofNat_eq hb,
    ofNat_eq hc]

theorem utf8EncodeChar_four {a b c d : UInt8} {v : Nat} (hv : 0xFFFF < v ∧ v < 0x110000)
    (ha : v / 262144 + 240 = a.toNat) (hb : v / 4096 % 64 + 128 = b.toNat)
    (hc : v / 64 % 64 + 128 = c.toNat) (hd : v % 64 + 128 = d.toNat) :
    String.utf8EncodeChar (Char.ofNat v) = [a, b, c, d] := by
  have := toNat_ofNat_of_valid (v := v) (by omega)
  unfold String.utf8EncodeChar
  simp only [show (Char.ofNat v).val.toNat = v from this]
  rw [if_neg (by omega), if_neg (by omega), if_neg (by omega), ofNat_eq (b := a) (by omega),
    ofNat_eq hb,
    ofNat_eq hc, ofNat_eq hd]

theorem eq_append_of_front {b : UInt8} {bs : List UInt8} {c : Char} {rest : List UInt8}
    (h : front b bs = .char c rest) : b :: bs = String.utf8EncodeChar c ++ rest := by
  unfold front at h
  split at h
  next value ranges hl =>
    unfold lead? at hl
    dsimp only at hl
    split at hl
    next h1 =>
      cases hl
      simp only [follow, Front.char.injEq] at h
      obtain ⟨rfl, rfl⟩ := h
      have := toNat_ofNat_of_valid (v := b.toNat) (by omega)
      unfold String.utf8EncodeChar
      simp only [show (Char.ofNat b.toNat).val.toNat = b.toNat from this]
      rw [if_pos h1, ofNat_eq rfl]
      rfl
    split at hl
    next =>
      cases hl
      obtain ⟨b1, _, rfl, _, _, h⟩ := follow_cons_eq_char h
      cases h
      rw [utf8EncodeChar_two (a := b) (b := b1) (by omega) (by omega) (by omega)]
      rfl
    iterate 3
      split at hl
      next =>
        cases hl
        obtain ⟨b1, _, rfl, _, _, h⟩ := follow_cons_eq_char h
        obtain ⟨b2, _, rfl, _, _, h⟩ := follow_cons_eq_char h
        cases h
        rw [utf8EncodeChar_three (a := b) (b := b1) (c := b2) (by omega) (by omega) (by omega)
          (by omega)]
        rfl
    iterate 3
      split at hl
      next =>
        cases hl
        obtain ⟨b1, _, rfl, _, _, h⟩ := follow_cons_eq_char h
        obtain ⟨b2, _, rfl, _, _, h⟩ := follow_cons_eq_char h
        obtain ⟨b3, _, rfl, _, _, h⟩ := follow_cons_eq_char h
        cases h
        rw [utf8EncodeChar_four (a := b) (b := b1) (c := b2) (d := b3) (by omega) (by omega)
          (by omega) (by omega) (by omega)]
        rfl
    next => simp at hl
  next => simp at h

theorem pieces_cons_of_front {b : UInt8} {bs : List UInt8} {c : Char} {rest : List UInt8}
    (h : front b bs = .char c rest) : pieces (b :: bs) = some c :: pieces rest := by
  rw [pieces, h]
  rfl

theorem pieces_encode_append (cs : List Char) (bs : List UInt8) :
    pieces (encode cs ++ bs) = cs.map some ++ pieces bs := by
  induction cs with
  | nil => rfl
  | cons c cs ih =>
    obtain ⟨b, r, hc, h⟩ := front_utf8EncodeChar c (encode cs ++ bs)
    rw [show encode (c :: cs) = String.utf8EncodeChar c ++ encode cs from rfl, hc,
      List.cons_append, List.cons_append, List.append_assoc, pieces_cons_of_front h, ih]
    rfl

theorem pieces_encode (cs : List Char) : pieces (encode cs) = cs.map some := by
  have all := pieces_encode_append cs []
  rwa [List.append_nil, pieces, List.append_nil] at all

theorem mapM_id_map_some (cs : List Char) : (cs.map some).mapM id = some cs := by
  induction cs with
  | nil => rfl
  | cons c cs ih => simp [ih]

@[simp] theorem decode?_bytes (s : String) : decode? (bytes s) = some s := by
  rw [decode?, bytes, pieces_encode, mapM_id_map_some, Option.map_some, String.ofList_toList]

theorem decodeLossy_bytes (s : String) : decodeLossy (bytes s) = s := by
  rw [decodeLossy, bytes, pieces_encode, List.map_map]
  exact (congrArg String.ofList (List.map_id s.toList)).trans String.ofList_toList

theorem bytes_ofList (cs : List Char) : bytes (String.ofList cs) = encode cs := by
  rw [bytes, String.toList_ofList]

theorem encode_cons (c : Char) (cs : List Char) :
    encode (c :: cs) = String.utf8EncodeChar c ++ encode cs := rfl

theorem encode_append (cs ds : List Char) : encode (cs ++ ds) = encode cs ++ encode ds :=
  List.flatMap_append

theorem bytes_append (s t : String) : bytes (s ++ t) = bytes s ++ bytes t := by
  rw [bytes, String.toList_append, encode_append]
  rfl

theorem bytes_injective {s t : String} (same : bytes s = bytes t) : s = t := by
  have decoded := decode?_bytes s
  rw [same, decode?_bytes] at decoded
  exact (Option.some.inj decoded).symm

theorem eq_encode_of_pieces {bs : List UInt8} {cs : List Char} (h : (pieces bs).mapM id = some cs) :
    bs = encode cs := by
  fun_induction pieces bs generalizing cs with
  | case1 => simp at h; subst h; rfl
  | case2 b bs ih =>
    cases hf : front b bs with
    | broken rest => simp [hf, Front.char?] at h
    | char c rest =>
      simp only [hf, Front.char?, Front.rest, List.mapM_cons, id, Option.bind_eq_bind,
        Option.bind_some, Option.bind_eq_some_iff, Option.pure_def, Option.some.injEq] at h ih
      obtain ⟨tail, ht, rfl⟩ := h
      rw [eq_append_of_front hf, ih ht]
      rfl

theorem decode?_eq_some {bs : List UInt8} {s : String} : decode? bs = some s ↔ bs = bytes s := by
  refine ⟨fun h => ?_, fun h => h ▸ decode?_bytes s⟩
  obtain ⟨cs, hcs, rfl⟩ := Option.map_eq_some_iff.1 h
  rw [bytes, String.toList_ofList]
  exact eq_encode_of_pieces hcs

theorem length_eq_of_front {b : UInt8} {bs : List UInt8} {c : Char} {rest : List UInt8}
    (found : front b bs = .char c rest) :
    bs.length + 1 - rest.length = (String.utf8EncodeChar c).length := by
  have taken := congrArg List.length (eq_append_of_front found)
  simp only [List.length_append, List.length_cons] at taken
  omega

/-- Before the defect stand characters, and none begins at it. -/
theorem exists_encode_defectFrom (index : Nat) (bs : List UInt8) :
    ∃ cs rest, bs = encode cs ++ rest ∧
      (defectFrom index bs).index = index + (encode cs).length ∧
      ∀ c, (pieces rest).head? ≠ some (some c) := by
  fun_induction defectFrom index bs with
  | case1 index => exact ⟨[], [], rfl, rfl, by simp [pieces]⟩
  | case2 index b bs c rest found ih =>
    obtain ⟨cs, stop, split, place, ends⟩ := ih
    refine ⟨c :: cs, stop, ?_, ?_, ends⟩
    · rw [eq_append_of_front found, split, encode_cons, List.append_assoc]
    · rw [place, length_eq_of_front found, encode_cons, List.length_append, Nat.add_assoc]
  | case3 index b bs rest found =>
    refine ⟨[], b :: bs, rfl, rfl, fun c begins => ?_⟩
    rw [pieces, found] at begins
    cases begins

end Clearance.Text.Utf8
