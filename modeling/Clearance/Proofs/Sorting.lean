import Clearance.Proofs.Canonical
import Clearance.Text.Utf8.Lemmas

/-! Sorting by the order on formulas. The order is total, so what is sorted depends on neither the
order of the members nor the way of sorting, and a repeat always stands beside what it repeats.
Values go by their characters, which is to say by their bytes. -/
namespace Clearance

namespace Text.Utf8

/-- The bytes of characters are in the order of the characters, and none begin with others. -/
theorem utf8EncodeChar_append_lt {c d : Char} (less : c < d) (xs ys : List UInt8) :
    String.utf8EncodeChar c ++ xs < String.utf8EncodeChar d ++ ys := by
  have below : c.toNat < d.toNat := less
  have last : d.toNat < 0x110000 := by
    have valid : d.toNat < 0xD800 ∨ 0xDFFF < d.toNat ∧ d.toNat < 0x110000 := d.valid
    omega
  have byte_lt {m n : Nat} (hm : m < 256) (hn : n < 256) :
      UInt8.ofNat m < UInt8.ofNat n ↔ m < n := by
    rw [UInt8.lt_iff_toNat_lt, toNat_ofNat_lt hm, toNat_ofNat_lt hn]
  have byte_eq {m n : Nat} (hm : m < 256) (hn : n < 256) :
      UInt8.ofNat m = UInt8.ofNat n ↔ m = n := by
    rw [← UInt8.toNat_inj, toNat_ofNat_lt hm, toNat_ofNat_lt hn]
  unfold String.utf8EncodeChar
  simp only [show c.val.toNat = c.toNat from rfl, show d.val.toNat = d.toNat from rfl]
  generalize c.toNat = m at *
  generalize d.toNat = n at *
  -- A longer encoding has a greater lead byte, and bytes of equal number are digits.
  split <;> split <;> (try split) <;> (try split) <;> (try split) <;> (try split) <;>
    simp (disch := omega) only [List.cons_append, List.nil_append, List.cons_lt_cons_iff, byte_lt,
      byte_eq] <;>
    try omega
  · have nested (k : Nat) : k / 4096 = k / 64 / 64 ∧ k / 262144 = k / 64 / 64 / 64 := by omega
    simp only [Nat.add_lt_add_iff_right, Nat.add_right_cancel_iff, nested]
    omega

theorem encode_lt : ∀ {cs ds : List Char}, cs < ds → encode cs < encode ds
  | [], d :: ds, _ => by
    obtain ⟨b, r, bytes, _⟩ := front_utf8EncodeChar d []
    rw [encode_cons, bytes]
    exact List.nil_lt_cons _ _
  | c :: cs, d :: ds, less => by
    rw [encode_cons, encode_cons]
    rcases List.cons_lt_cons_iff.mp less with heads | ⟨rfl, tails⟩
    · exact utf8EncodeChar_append_lt heads _ _
    · exact List.append_left_lt (encode_lt tails)

theorem lt_iff_bytes_lt {v w : String} : v < w ↔ bytes v < bytes w := by
  have forth {v w : String} (less : v < w) : bytes v < bytes w := encode_lt less
  constructor
  · exact forth
  · intro less
    by_cases before : v < w
    · exact before
    by_cases behind : w < v
    · exact absurd less (List.lt_asymm (forth behind))
    · obtain rfl := String.le_antisymm (String.not_lt.mp behind) (String.not_lt.mp before)
      exact absurd less (List.lt_irrefl _)

end Text.Utf8

namespace Formula

/-- Values go by their bytes. -/
theorem compare_atom_eq_lt_iff {v w : String} :
    (atom v).compare (atom w) = .lt ↔ Text.Utf8.bytes v < Text.Utf8.bytes w := by
  rw [Formula.compare, ← Text.Utf8.lt_iff_bytes_lt]
  exact compareOfLessAndEq_eq_lt

section

variable {fs gs : List Formula}

/-- There is one way to put members in order. -/
theorem eq_ascending_of_perm (same : fs.Perm gs)
    (sorted : gs.Pairwise fun a b => (a.compare b).isLE = true) : gs = ascending fs := by
  have antisymm : ∀ a b : Formula, a ∈ gs → b ∈ ascending fs → (a.compare b).isLE = true →
      (b.compare a).isLE = true → a = b := by
    intro a b _ _ ab ba
    rcases isLE_compare_iff.mp ab with less | equal
    · rw [← compare_swap, less] at ba
      cases ba
    · exact equal
  apply List.Perm.eq_of_pairwise antisymm sorted (pairwise_ascending fs)
  exact same.symm.trans (List.mergeSort_perm fs _).symm

theorem ascending_congr (same : fs.Perm gs) : ascending fs = ascending gs := by
  have perm : gs.Perm (ascending fs) := same.symm.trans (List.mergeSort_perm fs _).symm
  exact eq_ascending_of_perm perm (pairwise_ascending fs)

theorem Ascends.nodup (ascends : Ascends fs) : fs.Nodup := by
  apply List.Pairwise.imp _ ascends
  rintro a b less rfl
  rw [compare_self] at less
  cases less

end

/-- Formulas that go the same way one after the other go that way from end to end. -/
theorem compare_trans {a b c : Formula} {o : Ordering} (ab : a.compare b = o)
    (bc : b.compare c = o) : a.compare c = o := by
  cases o with
  | lt => exact compare_lt_trans ab bc
  | eq => rwa [eq_of_compare ab]
  | gt =>
    have ba : b.compare a = .lt := by rw [← compare_swap, ab]; rfl
    have cb : c.compare b = .lt := by rw [← compare_swap, bc]; rfl
    rw [← compare_swap, compare_lt_trans cb ba]
    rfl

/-- The order is total, and only identical formulas compare as equal. So members have one sorted
order, whatever order they come in, and to drop each that equals the one before it leaves every
member once. -/
theorem total_order_sorts (a b c : Formula) (o : Ordering) (fs gs : List Formula) :
    (a.compare b = .eq ↔ a = b) ∧ b.compare a = (a.compare b).swap ∧
      (a.compare b = o → b.compare c = o → a.compare c = o) ∧
      ((a.compare b).isLE → (b.compare c).isLE → (a.compare c).isLE) ∧
      fs.Perm (ascending fs) ∧ (ascending fs).Pairwise (fun a b => (a.compare b).isLE) ∧
      (fs.Perm gs → gs.Pairwise (fun a b => (a.compare b).isLE) → gs = ascending fs) ∧
      (fs.Perm gs → ascending fs = ascending gs) ∧
      (dropRepeats (ascending fs)).Nodup ∧ ∀ f, f ∈ dropRepeats (ascending fs) ↔ f ∈ fs :=
  ⟨compare_eq_iff, (compare_swap a b).symm, compare_trans, Std.TransCmp.isLE_trans,
    (List.mergeSort_perm fs _).symm, pairwise_ascending fs, eq_ascending_of_perm, ascending_congr,
    (ascends_tidy fs).nodup, fun _ => mem_tidy⟩

/-- The formulas `a`, `a|b` and `a&(a|b)`, and two of them in two orders. -/
theorem total_order_sorts_nested :
    let a : Formula := .atom "a"
    let b : Formula := .group .or [a, .atom "b"]
    let c : Formula := .group .and [a, b]
    (a.compare b = .lt ∧ b.compare c = .lt ∧ a.compare c = .lt) ∧
      (a.compare c).isLE ∧ [c, a, c].Perm [a, c, c] ∧ [a, c, c] = ascending [c, a, c] ∧
      ascending [c, a, c] = ascending [a, c, c] := by
  intro a b c
  have ab : a.compare b = .lt := by simp [a, b, Formula.compare, rank]; rfl
  have bc : b.compare c = .lt := by simp [b, c, Formula.compare, rank]; rfl
  have ac : a.compare c = .lt := by simp [a, c, Formula.compare, rank]; rfl
  have perm : [c, a, c].Perm [a, c, c] := List.Perm.swap a c [c]
  have sorted : [a, c, c].Pairwise fun a b => (a.compare b).isLE := by
    simp [ac, compare_self]
  obtain ⟨_, _, trans, le, _, _, once, alike, _, _⟩ :=
    total_order_sorts a b c .lt [c, a, c] [a, c, c]
  exact ⟨⟨ab, bc, trans ab bc⟩, le (by rw [ab]; rfl) (by rw [bc]; rfl), perm, once perm sorted,
    alike perm⟩

end Formula

end Clearance
