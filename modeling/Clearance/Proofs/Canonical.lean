import Clearance.Formula.Normal
import Clearance.Proofs.Ordering

/-! Canonical formulas: at least two members to a group, none of them a group of the same
connective, and all of them in strictly ascending order. Two lists of members make one group if
each member of one is a member of the other, however often and wherever it stands. -/
namespace Clearance.Formula

def Ascends (fs : List Formula) : Prop := fs.Pairwise fun a b => a.compare b = .lt

/-- A strictly ascending list is known by its members. -/
theorem Ascends.ext : ∀ {as bs : List Formula}, Ascends as → Ascends bs →
    (∀ f, f ∈ as ↔ f ∈ bs) → as = bs
  | [], [], _, _, _ => rfl
  | [], b :: _, _, _, same => absurd ((same b).mpr List.mem_cons_self) List.not_mem_nil
  | a :: _, [], _, _, same => absurd ((same a).mp List.mem_cons_self) List.not_mem_nil
  | a :: as, b :: bs, ha, hb, same => by
    obtain ⟨aLeast, aRest⟩ := List.pairwise_cons.mp ha
    obtain ⟨bLeast, bRest⟩ := List.pairwise_cons.mp hb
    have heads : a = b := by
      rcases List.mem_cons.mp ((same a).mp List.mem_cons_self) with equal | later
      · exact equal
      rcases List.mem_cons.mp ((same b).mpr List.mem_cons_self) with equal | later'
      · exact equal.symm
      exact absurd (bLeast a later) (Std.OrientedCmp.not_lt_of_lt (aLeast b later'))
    subst heads
    have tails : ∀ f, f ∈ as ↔ f ∈ bs := by
      intro f
      have irrefl : a.compare a ≠ .lt := fun less => Std.OrientedCmp.not_lt_of_lt less less
      constructor
      · intro member
        rcases List.mem_cons.mp ((same f).mp (List.mem_cons_of_mem _ member)) with rfl | later
        · exact absurd (aLeast f member) irrefl
        · exact later
      · intro member
        rcases List.mem_cons.mp ((same f).mpr (List.mem_cons_of_mem _ member)) with rfl | later
        · exact absurd (bLeast f member) irrefl
        · exact later
    rw [Ascends.ext aRest bRest tails]

theorem mem_ascending {f : Formula} {fs : List Formula} : f ∈ ascending fs ↔ f ∈ fs :=
  List.mem_mergeSort

theorem pairwise_ascending (fs : List Formula) :
    (ascending fs).Pairwise fun a b => (a.compare b).isLE = true :=
  List.pairwise_mergeSort (fun _ _ _ => Std.TransCmp.isLE_trans) isLE_compare_total fs

theorem mem_dropRepeatsOf (f : Formula) : ∀ (a : Formula) (bs : List Formula),
    f ∈ a :: dropRepeatsOf a bs ↔ f ∈ a :: bs
  | a, [] => Iff.rfl
  | a, b :: bs => by
    rw [dropRepeatsOf]
    split
    next same =>
      obtain rfl := eq_of_compare same
      rw [mem_dropRepeatsOf f a bs]
      simp
    next =>
      rw [List.mem_cons, mem_dropRepeatsOf f b bs]
      exact List.mem_cons.symm

theorem ascends_dropRepeatsOf : ∀ {a : Formula} {bs : List Formula},
    (a :: bs).Pairwise (fun a b => (a.compare b).isLE = true) → Ascends (a :: dropRepeatsOf a bs)
  | a, [], _ => List.pairwise_singleton _ _
  | a, b :: bs, sorted => by
    obtain ⟨aLeast, rest⟩ := List.pairwise_cons.mp sorted
    rw [dropRepeatsOf]
    split
    next same =>
      obtain rfl := eq_of_compare same
      exact ascends_dropRepeatsOf rest
    next apart =>
      have later := ascends_dropRepeatsOf rest
      refine List.pairwise_cons.mpr ⟨?_, later⟩
      have less : a.compare b = .lt := by
        rcases isLE_compare_iff.mp (aLeast b List.mem_cons_self) with less | rfl
        · exact less
        · exact absurd (compare_self a) apart
      intro f member
      rcases List.mem_cons.mp member with rfl | member
      · exact less
      · exact compare_lt_trans less ((List.pairwise_cons.mp later).1 f member)

/-- The members in ascending order, each of them once. -/
def tidy (fs : List Formula) : List Formula := dropRepeats (ascending fs)

theorem mem_tidy {f : Formula} {fs : List Formula} : f ∈ tidy fs ↔ f ∈ fs := by
  rw [tidy, ← @mem_ascending f fs]
  cases ascending fs with
  | nil => exact Iff.rfl
  | cons a as => exact mem_dropRepeatsOf f a as

theorem ascends_tidy (fs : List Formula) : Ascends (tidy fs) := by
  have sorted := pairwise_ascending fs
  rw [tidy]
  cases split : ascending fs with
  | nil => exact List.Pairwise.nil
  | cons a as =>
    rw [split] at sorted
    exact ascends_dropRepeatsOf sorted

theorem tidy_congr {as bs : List Formula} (same : ∀ f, f ∈ as ↔ f ∈ bs) : tidy as = tidy bs :=
  (ascends_tidy as).ext (ascends_tidy bs) fun f => by rw [mem_tidy, mem_tidy, same f]

theorem tidy_of_ascends {fs : List Formula} (ascends : Ascends fs) : tidy fs = fs :=
  (ascends_tidy fs).ext ascends fun _ => mem_tidy

theorem tidy_ne_nil {fs : List Formula} (nonempty : fs ≠ []) : tidy fs ≠ [] := by
  intro empty
  obtain ⟨f, rest, rfl⟩ := List.exists_cons_of_ne_nil nonempty
  have member : f ∈ tidy (f :: rest) := mem_tidy.mpr List.mem_cons_self
  rw [empty] at member
  exact List.not_mem_nil member

/-- What is gathered is the one member that is left, or the group of all of them. -/
theorem gather_cases (op : Connective) {fs : List Formula} (nonempty : fs ≠ []) :
    (∃ only, tidy fs = [only] ∧ gather op fs = only) ∨
      2 ≤ (tidy fs).length ∧ gather op fs = group op (tidy fs) := by
  rw [gather, ← tidy]
  match tidied : tidy fs with
  | [] => exact absurd tidied (tidy_ne_nil nonempty)
  | [only] => exact Or.inl ⟨only, rfl, rfl⟩
  | a :: b :: rest => exact Or.inr ⟨Nat.le_add_left 2 rest.length, rfl⟩

theorem gather_congr (op : Connective) {as bs : List Formula} (same : ∀ f, f ∈ as ↔ f ∈ bs) :
    gather op as = gather op bs := by
  rw [gather, gather, ← tidy, ← tidy, tidy_congr same]

inductive Canonical : Formula → Prop where
  | atom (value : String) : Canonical (.atom value)
  | group {op : Connective} {members : List Formula} (two : 2 ≤ members.length)
      (ascends : Ascends members) (apart : ∀ m ∈ members, ∀ ms, m ≠ .group op ms)
      (each : ∀ m ∈ members, Canonical m) : Canonical (.group op members)

/-- A formula that may stand in a canonical group. -/
structure Fits (op : Connective) (f : Formula) : Prop where
  canonical : f.Canonical
  apart (ms : List Formula) : f ≠ .group op ms

theorem Fits.membersUnder_eq {op : Connective} {f : Formula} (fits : f.Fits op) :
    f.membersUnder op = [f] := by
  cases f with
  | atom v => rfl
  | group op' ms =>
    have other : op' ≠ op := by
      rintro rfl
      exact fits.apart ms rfl
    rw [membersUnder, if_neg other]

/-- What a canonical formula contributes to a group: at least one member, all of them fit to stand
in it, and from which the formula is gathered again. -/
theorem Canonical.fits {f : Formula} (canonical : f.Canonical) (op : Connective) :
    f.membersUnder op ≠ [] ∧ (∀ m ∈ f.membersUnder op, m.Fits op) ∧
      gather op (f.membersUnder op) = f := by
  have alone {f : Formula} (fits : f.Fits op) : f.membersUnder op ≠ [] ∧
      (∀ m ∈ f.membersUnder op, m.Fits op) ∧ gather op (f.membersUnder op) = f := by
    have tidied : tidy [f] = [f] := tidy_of_ascends (List.pairwise_singleton _ _)
    rw [fits.membersUnder_eq, List.forall_mem_singleton, gather, ← tidy, tidied]
    exact ⟨List.cons_ne_nil _ _, fits, rfl⟩
  cases canonical with
  | atom v => exact alone ⟨.atom v, fun _ => Formula.noConfusion⟩
  | @group op' ms two ascends apart each =>
    by_cases same : op' = op
    · subst same
      rw [membersUnder, if_pos rfl, gather, ← tidy, tidy_of_ascends ascends]
      match ms, two with
      | a :: b :: rest, _ =>
        exact ⟨List.cons_ne_nil _ _, fun m member => ⟨each m member, apart m member⟩, rfl⟩
    · refine alone ⟨.group two ascends apart each, fun ns equal => ?_⟩
      cases equal
      exact same rfl

section

variable {op : Connective} {fs : List Formula} (nonempty : fs ≠ []) (fits : ∀ f ∈ fs, f.Fits op)
include nonempty fits

theorem canonical_gather : (gather op fs).Canonical := by
  rcases gather_cases op nonempty with ⟨only, tidied, gathered⟩ | ⟨two, gathered⟩
  · rw [gathered]
    exact (fits only (mem_tidy.mp (tidied ▸ List.mem_cons_self))).canonical
  · rw [gathered]
    exact .group two (ascends_tidy fs) (fun m member => (fits m (mem_tidy.mp member)).apart)
      fun m member => (fits m (mem_tidy.mp member)).canonical

theorem membersUnder_gather : (gather op fs).membersUnder op = tidy fs := by
  rcases gather_cases op nonempty with ⟨only, tidied, gathered⟩ | ⟨_, gathered⟩
  · rw [gathered, tidied]
    exact (fits only (mem_tidy.mp (tidied ▸ List.mem_cons_self))).membersUnder_eq
  · rw [gathered, membersUnder, if_pos rfl]

theorem mem_membersUnder_gather {f : Formula} :
    f ∈ (gather op fs).membersUnder op ↔ f ∈ fs := by
  rw [membersUnder_gather nonempty fits, mem_tidy]

end

mutual

/-- The values that a formula mentions. -/
def values : Formula → List String
  | .atom v => [v]
  | .group _ ms => memberValues ms

def memberValues : List Formula → List String
  | [] => []
  | m :: ms => m.values ++ memberValues ms

end

theorem mem_memberValues {v : String} {fs : List Formula} :
    v ∈ memberValues fs ↔ ∃ f ∈ fs, v ∈ f.values := by
  induction fs with
  | nil => simp [memberValues]
  | cons f fs ih => simp [memberValues, ih]

theorem mem_values_membersUnder (op : Connective) {v : String} (f : Formula) :
    (∃ m ∈ f.membersUnder op, v ∈ m.values) ↔ v ∈ f.values := by
  cases f with
  | atom w => simp [membersUnder]
  | group op' ms =>
    rw [membersUnder]
    split
    · exact mem_memberValues.symm
    · simp

theorem mem_values_gather (op : Connective) {v : String} {fs : List Formula} :
    v ∈ (gather op fs).values ↔ ∃ f ∈ fs, v ∈ f.values := by
  have tidied : (∃ f ∈ tidy fs, v ∈ f.values) ↔ ∃ f ∈ fs, v ∈ f.values := by
    simp only [mem_tidy]
  rw [← tidied, gather, ← tidy]
  match tidy fs with
  | [] => exact mem_memberValues
  | [only] => simp
  | a :: b :: rest => exact mem_memberValues

end Clearance.Formula
