import Clearance.Fault
import Clearance.Proofs.Textual

/-! What is shown of bytes that need not be text. A byte of ASCII begins a character whatever
stands before it, so what is shown falls apart there. A broken piece has at most as many bytes as
the replacement that is shown for it, so nothing gets shorter by being shown. Where the first broken
piece begins, the longest front that is text ends. -/
namespace Clearance

namespace Text.Utf8

/-- The same front with more bytes behind it. -/
def Front.extend (more : List UInt8) : Front → Front
  | .char c rest => .char c (rest ++ more)
  | .broken rest => .broken (rest ++ more)

@[simp] theorem Front.char?_extend (more : List UInt8) (f : Front) :
    (f.extend more).char? = f.char? := by
  cases f <;> rfl

@[simp] theorem Front.rest_extend (more : List UInt8) (f : Front) :
    (f.extend more).rest = f.rest ++ more := by
  cases f <;> rfl

/-- Behind a lead byte come at most three bytes, none of them of ASCII. -/
theorem lead?_ranges {b : UInt8} {value : Nat} {ranges : List (Nat × Nat)}
    (leads : lead? b = some (value, ranges)) :
    ranges.length ≤ 3 ∧ ∀ range ∈ ranges, 0x7F < range.1 := by
  unfold lead? at leads
  dsimp only at leads
  repeat' split at leads
  all_goals cases leads
  all_goals decide

section

variable {a : UInt8} (ascii : a.toNat ≤ 0x7F) (cs : List UInt8)
include ascii

theorem follow_append (value : Nat) (ranges : List (Nat × Nat)) (bs : List UInt8)
    (high : ∀ range ∈ ranges, 0x7F < range.1) :
    follow value ranges (bs ++ a :: cs) = (follow value ranges bs).extend (a :: cs) := by
  fun_induction follow value ranges bs with
  | case1 => rfl
  | case2 value range ranges =>
    obtain ⟨above, _⟩ := List.forall_mem_cons.mp high
    rw [List.nil_append, follow, if_neg (by omega)]
    rfl
  | case3 value low high ranges b bs within ih =>
    rw [List.cons_append, follow, if_pos within]
    exact ih (List.forall_mem_cons.mp ‹_›).2
  | case4 value low high ranges b bs outside =>
    rw [List.cons_append, follow, if_neg outside]
    rfl

theorem front_append (b : UInt8) (bs : List UInt8) :
    front b (bs ++ a :: cs) = (front b bs).extend (a :: cs) := by
  unfold front
  split
  next value ranges leads => exact follow_append ascii cs value ranges bs (lead?_ranges leads).2
  next => rfl

/-- What stands before a byte of ASCII is no part of what begins there. -/
theorem pieces_append (bs : List UInt8) :
    pieces (bs ++ a :: cs) = pieces bs ++ pieces (a :: cs) := by
  fun_induction pieces bs with
  | case1 => rfl
  | case2 b bs ih =>
    rw [List.cons_append, pieces, front_append ascii cs, Front.char?_extend, Front.rest_extend, ih,
      List.cons_append]

theorem decodeLossy_append (bs : List UInt8) :
    decodeLossy (bs ++ a :: cs) = decodeLossy bs ++ decodeLossy (a :: cs) := by
  rw [decodeLossy, pieces_append ascii, List.map_append, String.ofList_append]
  rfl

end

/-- A piece that breaks off is short of the bytes that were to follow. -/
theorem length_follow_broken (value : Nat) (ranges : List (Nat × Nat)) (bs : List UInt8)
    {rest : List UInt8} (broken : follow value ranges bs = .broken rest) :
    bs.length < rest.length + ranges.length := by
  fun_induction follow value ranges bs with
  | case1 => cases broken
  | case2 =>
    cases broken
    exact Nat.succ_pos _
  | case3 value low high ranges b bs within ih =>
    have shorter := ih broken
    simp only [List.length_cons]
    omega
  | case4 =>
    cases broken
    simp

theorem length_front_broken {b : UInt8} {bs rest : List UInt8}
    (broken : front b bs = .broken rest) : bs.length ≤ rest.length + 2 := by
  unfold front at broken
  split at broken
  next value ranges leads =>
    have shorter := length_follow_broken value ranges bs broken
    have few := (lead?_ranges leads).1
    omega
  next =>
    cases broken
    exact Nat.le_add_right _ _

/-- Nothing gets shorter by being shown. -/
theorem length_le_decodeLossy (bs : List UInt8) :
    bs.length ≤ (bytes (decodeLossy bs)).length := by
  rw [decodeLossy, bytes_ofList]
  fun_induction pieces bs with
  | case1 => exact Nat.le_refl _
  | case2 b bs ih =>
    rw [List.map_cons, encode_cons, List.length_append, List.length_cons]
    cases read : front b bs with
    | char c rest =>
      rw [read] at ih
      have taken := congrArg List.length (eq_append_of_front read)
      simp only [List.length_append, List.length_cons] at taken
      simp only [Front.char?, Front.rest, Option.getD_some] at ih ⊢
      omega
    | broken rest =>
      rw [read] at ih
      have few := length_front_broken read
      have three : (String.utf8EncodeChar replacement).length = 3 := by decide
      simp only [Front.char?, Front.rest, Option.getD_none] at ih ⊢
      omega

/-- What is shown begins with the character that begins the bytes. -/
theorem head?_decodeLossy {bs : List UInt8} (nonempty : bs ≠ []) :
    (decodeLossy bs).toList.head? = some (firstChar bs) := by
  obtain ⟨b, bs, rfl⟩ := List.exists_cons_of_ne_nil nonempty
  rw [decodeLossy, String.toList_ofList, pieces]
  rfl

end Text.Utf8

open Text.Utf8

/-- Text is shown as it is. -/
theorem IsText.bytes_decodeLossy {bs : List UInt8} (text : IsText bs) :
    bytes (decodeLossy bs) = bs := by
  obtain ⟨cs, rfl⟩ := text
  rw [← bytes_ofList, decodeLossy_bytes]

/-- What is shown falls apart behind text. -/
theorem IsText.decodeLossy_append {bs : List UInt8} (text : IsText bs) (cs : List UInt8) :
    decodeLossy (bs ++ cs) = decodeLossy bs ++ decodeLossy cs := by
  obtain ⟨ds, rfl⟩ := text
  rw [decodeLossy, pieces_encode_append, List.map_append, String.ofList_append, ← pieces_encode]
  rfl

/-- The defect of some bytes is where the longest front that is text ends. -/
theorem IsText.index_defect (bs : List UInt8) :
    (∃ text, text <+: bs ∧ IsText text ∧ text.length = (defect bs).index) ∧
      ∀ text, text <+: bs → IsText text → text.length ≤ (defect bs).index := by
  obtain ⟨cs, rest, split, place, ends⟩ := exists_encode_defectFrom 0 bs
  rw [← defect, Nat.zero_add] at place
  refine ⟨⟨encode cs, ⟨rest, split.symm⟩, ⟨cs, rfl⟩, place.symm⟩, ?_⟩
  rintro _ ⟨more, reaches⟩ ⟨ds, rfl⟩
  have same : ds.map some ++ pieces more = cs.map some ++ pieces rest := by
    rw [← pieces_encode_append, ← pieces_encode_append, reaches, split]
  rcases List.append_eq_append_iff.mp same with ⟨as, within, _⟩ | ⟨as, beyond, behind⟩
  · obtain ⟨front, back, rfl, whole, _⟩ := List.map_eq_append_iff.mp within
    obtain rfl := (List.map_inj_right fun _ _ => Option.some.inj).mp whole
    rw [place, encode_append, List.length_append]
    exact Nat.le_add_right _ _
  · obtain ⟨front, back, rfl, whole, rfl⟩ := List.map_eq_append_iff.mp beyond
    obtain rfl := (List.map_inj_right fun _ _ => Option.some.inj).mp whole
    cases back with
    | nil => exact Nat.le_of_eq (by rw [place, List.append_nil])
    | cons c back => exact absurd (by rw [behind]; rfl) (ends c)

/-- A column is the number of characters before it. -/
theorem column_encode (cs ds : List Char) : column (cs ++ ds) (encode cs).length = cs.length := by
  induction cs with
  | nil => cases ds <;> rfl
  | cons c cs ih =>
    have size : (String.utf8EncodeChar c).length = c.utf8Size := String.length_utf8EncodeChar c
    have positive := c.utf8Size_pos
    rw [encode_cons, List.length_append, size, List.cons_append, column, if_neg (by omega),
      Nat.add_sub_cancel_left, ih, List.length_cons]

end Clearance
