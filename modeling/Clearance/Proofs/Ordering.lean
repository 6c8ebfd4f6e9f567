import Clearance.Formula.Order

/-! The order on formulas is a total order: only equal formulas compare as equal. Sorting then
has one outcome. -/
namespace Clearance.Formula

mutual

theorem compare_self : ∀ f : Formula, f.compare f = .eq
  | .atom v => by
    rw [Formula.compare]
    exact Std.ReflOrd.compare_self
  | .group op ms => by
    have length : Ord.compare ms.length ms.length = .eq := Nat.compare_eq_eq.mpr rfl
    rw [Formula.compare, if_pos rfl, length, compareMembers_self ms]
    rfl

theorem compareMembers_self : ∀ fs : List Formula, compareMembers fs fs = .eq
  | [] => by simp [compareMembers]
  | f :: fs => by
    rw [compareMembers, compare_self f, compareMembers_self fs]
    rfl

end

theorem rank_group_pos (op : Connective) (ms : List Formula) : 0 < (group op ms).rank := by
  cases op <;> exact Nat.succ_pos _

theorem rank_group_injective {op op' : Connective} {ms ns : List Formula}
    (same : (group op ms).rank = (group op' ns).rank) : op = op' := by
  cases op <;> cases op' <;> first | rfl | cases same

/-- Formulas of different ranks go by their ranks. -/
theorem compare_of_rank_ne {a b : Formula} (apart : a.rank ≠ b.rank) :
    a.compare b = Ord.compare a.rank b.rank := by
  cases a with
  | atom v =>
    cases b with
    | atom w => exact absurd rfl apart
    | group op ms => simp [Formula.compare]
  | group op ms =>
    cases b with
    | atom w => simp [Formula.compare]
    | group op' ns =>
      have other : op ≠ op' := by
        rintro rfl
        exact apart (by cases op <;> rfl)
      rw [Formula.compare, if_neg other]

theorem rank_eq_of_compare {a b : Formula} (equal : a.compare b = .eq) : a.rank = b.rank := by
  by_cases same : a.rank = b.rank
  · exact same
  · rw [compare_of_rank_ne same] at equal
    exact Nat.compare_eq_eq.mp equal

theorem rank_le_of_compare {a b : Formula} (less : a.compare b = .lt) : a.rank ≤ b.rank := by
  by_cases same : a.rank = b.rank
  · exact Nat.le_of_eq same
  · rw [compare_of_rank_ne same] at less
    exact Nat.le_of_lt (Nat.compare_eq_lt.mp less)

theorem compare_group (op : Connective) (ms ns : List Formula) :
    (group op ms).compare (group op ns) =
      (Ord.compare ms.length ns.length).then (compareMembers ms ns) := by
  rw [Formula.compare, if_pos rfl]

mutual

theorem eq_of_compare : ∀ {a b : Formula}, a.compare b = .eq → a = b
  | .atom v, .atom w, equal => by
    rw [Formula.compare] at equal
    rw [Std.LawfulEqCmp.eq_of_compare equal]
  | .group op ms, .group op' ns, equal => by
    obtain rfl := rank_group_injective (rank_eq_of_compare equal)
    rw [compare_group, Ordering.then_eq_eq] at equal
    rw [eq_of_compareMembers (Nat.compare_eq_eq.mp equal.1) equal.2]
  | .atom _, .group op ms, equal =>
    absurd (rank_eq_of_compare equal) (Nat.ne_of_lt (rank_group_pos op ms))
  | .group op ms, .atom _, equal =>
    absurd (rank_eq_of_compare equal).symm (Nat.ne_of_lt (rank_group_pos op ms))

theorem eq_of_compareMembers : ∀ {as bs : List Formula}, as.length = bs.length →
    compareMembers as bs = .eq → as = bs
  | [], [], _, _ => rfl
  | a :: as, b :: bs, length, equal => by
    rw [compareMembers, Ordering.then_eq_eq] at equal
    rw [eq_of_compare equal.1, eq_of_compareMembers (Nat.succ.inj length) equal.2]

end

theorem compare_eq_iff {a b : Formula} : a.compare b = .eq ↔ a = b := by
  constructor
  · exact eq_of_compare
  · rintro rfl
    exact compare_self a

mutual

theorem compare_swap : ∀ a b : Formula, (a.compare b).swap = b.compare a
  | .atom v, .atom w => by
    rw [Formula.compare, Formula.compare]
    exact Std.OrientedOrd.eq_swap.symm
  | .group op ms, .group op' ns => by
    by_cases same : op = op'
    · obtain rfl := same
      rw [compare_group, compare_group, Ordering.swap_then, compareMembers_swap ms ns,
        Nat.compare_swap]
    · have apart : (group op ms).rank ≠ (group op' ns).rank := fun h =>
        same (rank_group_injective h)
      rw [compare_of_rank_ne apart, compare_of_rank_ne apart.symm, Nat.compare_swap]
  | .atom v, .group op ms => by
    have apart : (atom v).rank ≠ (group op ms).rank := Nat.ne_of_lt (rank_group_pos op ms)
    rw [compare_of_rank_ne apart, compare_of_rank_ne apart.symm, Nat.compare_swap]
  | .group op ms, .atom v => by
    have apart : (atom v).rank ≠ (group op ms).rank := Nat.ne_of_lt (rank_group_pos op ms)
    rw [compare_of_rank_ne apart, compare_of_rank_ne apart.symm, Nat.compare_swap]

theorem compareMembers_swap : ∀ as bs : List Formula,
    (compareMembers as bs).swap = compareMembers bs as
  | [], [] => by simp [compareMembers]
  | [], _ :: _ => by simp [compareMembers]
  | _ :: _, [] => by simp [compareMembers]
  | a :: as, b :: bs => by
    rw [compareMembers, compareMembers, Ordering.swap_then, compare_swap a b,
      compareMembers_swap as bs]

end

theorem compare_lt_of_rank_ne {a b c : Formula} (ab : a.compare b = .lt) (bc : b.compare c = .lt)
    (apart : a.rank ≠ c.rank) : a.compare c = .lt := by
  have below := Nat.le_trans (rank_le_of_compare ab) (rank_le_of_compare bc)
  rw [compare_of_rank_ne apart]
  exact Nat.compare_eq_lt.mpr (Nat.lt_of_le_of_ne below apart)

mutual

theorem compare_lt_trans : ∀ {a b c : Formula}, a.compare b = .lt → b.compare c = .lt →
    a.compare c = .lt
  | .atom u, .atom v, .atom w, ab, bc => by
    rw [Formula.compare] at ab bc ⊢
    exact Std.TransCmp.lt_trans ab bc
  | .group op ms, .group op' ns, .group op'' ks, ab, bc => by
    by_cases apart : (group op ms).rank = (group op'' ks).rank
    · have lower := rank_le_of_compare ab
      have upper := rank_le_of_compare bc
      obtain rfl := rank_group_injective apart
      obtain rfl := rank_group_injective (Nat.le_antisymm lower (apart ▸ upper))
      rw [compare_group, Ordering.then_eq_lt, Nat.compare_eq_lt, Nat.compare_eq_eq] at ab bc ⊢
      rcases ab with shorter | ⟨ab, first⟩
      · refine Or.inl (Nat.lt_of_lt_of_le shorter ?_)
        rcases bc with shorter | ⟨bc, _⟩
        · exact Nat.le_of_lt shorter
        · exact Nat.le_of_eq bc
      · rcases bc with shorter | ⟨bc, second⟩
        · exact Or.inl (ab ▸ shorter)
        · exact Or.inr ⟨ab.trans bc, compareMembers_lt_trans first second ab⟩
    · exact compare_lt_of_rank_ne ab bc apart
  | .atom _, .atom _, .group op ms, ab, bc =>
    compare_lt_of_rank_ne ab bc (Nat.ne_of_lt (rank_group_pos op ms))
  | .atom _, .group _ _, .group op ms, ab, bc =>
    compare_lt_of_rank_ne ab bc (Nat.ne_of_lt (rank_group_pos op ms))
  | .group op ms, .atom _, _, ab, _ =>
    absurd (rank_le_of_compare ab) (Nat.not_le_of_lt (rank_group_pos op ms))
  | _, .group op ms, .atom _, _, bc =>
    absurd (rank_le_of_compare bc) (Nat.not_le_of_lt (rank_group_pos op ms))

theorem compareMembers_lt_trans : ∀ {as bs cs : List Formula}, compareMembers as bs = .lt →
    compareMembers bs cs = .lt → as.length = bs.length → compareMembers as cs = .lt
  | [], _, _, ab, _, _ => by simp [compareMembers] at ab
  | _ :: _, [], _, ab, _, _ => by simp [compareMembers] at ab
  | _ :: _, _ :: _, [], _, bc, _ => by simp [compareMembers] at bc
  | a :: as, b :: bs, c :: cs, ab, bc, length => by
    rw [compareMembers, Ordering.then_eq_lt] at ab bc ⊢
    rcases ab with less | ⟨same, less⟩
    · rcases bc with more | ⟨equal, _⟩
      · exact Or.inl (compare_lt_trans less more)
      · exact Or.inl (eq_of_compare equal ▸ less)
    · rw [eq_of_compare same]
      rcases bc with more | ⟨equal, more⟩
      · exact Or.inl more
      · exact Or.inr ⟨equal, compareMembers_lt_trans less more (Nat.succ.inj length)⟩

end

theorem isLE_compare_iff {a b : Formula} :
    (a.compare b).isLE = true ↔ a.compare b = .lt ∨ a = b := by
  rw [Ordering.isLE_iff_eq_lt_or_eq_eq, compare_eq_iff]

instance : Std.LawfulEqCmp Formula.compare where
  compare_self := compare_self _
  eq_of_compare := eq_of_compare

instance : Std.TransCmp Formula.compare where
  eq_swap := (compare_swap _ _).symm
  isLE_trans ab bc := by
    rw [isLE_compare_iff] at ab bc ⊢
    rcases ab with less | rfl
    · rcases bc with more | rfl
      · exact Or.inl (compare_lt_trans less more)
      · exact Or.inl less
    · exact bc

theorem isLE_compare_total (a b : Formula) :
    ((a.compare b).isLE || (b.compare a).isLE) = true := by
  rw [← compare_swap a b]
  cases a.compare b <;> rfl

end Clearance.Formula
