import Clearance.Proofs.Canonical

/-! Terms over the two connectives as binary operations, up to the laws that order, repetition and
bracketing mean nothing. Each term has a canonical formula, and two terms have the same one
exactly if the laws make them equal. -/
namespace Clearance

inductive Binary where
  | atom (value : String)
  | join (op : Connective) (left right : Binary)
  deriving DecidableEq, Repr

namespace Binary

/-- Equality by associativity, commutativity and idempotence of each connective, and by nothing
else: no law relates the two connectives. -/
inductive Same : Binary → Binary → Prop where
  | refl (a : Binary) : Same a a
  | symm {a b : Binary} (ab : Same a b) : Same b a
  | trans {a b c : Binary} (ab : Same a b) (bc : Same b c) : Same a c
  | join (op : Connective) {a a' b b' : Binary} (left : Same a a') (right : Same b b') :
      Same (.join op a b) (.join op a' b')
  | assoc (op : Connective) (a b c : Binary) :
      Same (.join op (.join op a b) c) (.join op a (.join op b c))
  | comm (op : Connective) (a b : Binary) : Same (.join op a b) (.join op b a)
  | idem (op : Connective) (a : Binary) : Same (.join op a a) a

open Formula

/-- The canonical formula of a term. -/
def normal : Binary → Formula
  | .atom v => .atom v
  | .join op a b => gather op (a.normal.membersUnder op ++ b.normal.membersUnder op)

section

variable {op : Connective} {f g : Formula}

theorem append_ne_nil (hf : f.Canonical) (op : Connective) (g : Formula) :
    f.membersUnder op ++ g.membersUnder op ≠ [] :=
  List.append_ne_nil_of_left_ne_nil (hf.fits op).1 _

theorem append_fits (hf : f.Canonical) (hg : g.Canonical) (op : Connective) :
    ∀ m ∈ f.membersUnder op ++ g.membersUnder op, m.Fits op :=
  List.forall_mem_append.mpr ⟨(hf.fits op).2.1, (hg.fits op).2.1⟩

end

theorem canonical_normal : ∀ a : Binary, a.normal.Canonical
  | .atom v => .atom v
  | .join op a b =>
    canonical_gather (append_ne_nil a.canonical_normal op b.normal)
      (append_fits a.canonical_normal b.canonical_normal op)

/-- The members of a joined term are those of both its sides. -/
theorem mem_normal_join (op : Connective) (a b : Binary) {f : Formula} :
    f ∈ (join op a b).normal.membersUnder op ↔
      f ∈ a.normal.membersUnder op ∨ f ∈ b.normal.membersUnder op := by
  rw [normal, mem_membersUnder_gather (append_ne_nil a.canonical_normal op b.normal)
    (append_fits a.canonical_normal b.canonical_normal op), List.mem_append]

/-- The laws keep the canonical formula. -/
theorem Same.normal_eq {a b : Binary} (same : Same a b) : a.normal = b.normal := by
  induction same with
  | refl _ => rfl
  | symm _ ih => exact ih.symm
  | trans _ _ ab bc => exact ab.trans bc
  | join op _ _ left right => rw [normal, normal, left, right]
  | assoc op a b c =>
    show gather op ((Binary.join op a b).normal.membersUnder op ++ c.normal.membersUnder op) =
      gather op (a.normal.membersUnder op ++ (Binary.join op b c).normal.membersUnder op)
    apply gather_congr op
    intro f
    rw [List.mem_append, List.mem_append, mem_normal_join, mem_normal_join, or_assoc]
  | comm op a b =>
    apply gather_congr op
    intro f
    rw [List.mem_append, List.mem_append, or_comm]
  | idem op a =>
    calc
      (Binary.join op a a).normal = gather op (a.normal.membersUnder op) :=
        gather_congr op fun f => by rw [List.mem_append, or_self]
      _ = a.normal := (a.canonical_normal.fits op).2.2

/-- Two terms change places within a third. -/
theorem Same.left_comm (op : Connective) (a b c : Binary) :
    Same (.join op a (.join op b c)) (.join op b (.join op a c)) :=
  (Same.assoc op a b c).symm.trans
    ((Same.join op (.comm op a b) (.refl c)).trans (.assoc op b a c))

end Binary

namespace Formula

mutual

/-- A term of a formula. Groups have members; the value of a group without any is of no account. -/
def term : Formula → Binary
  | .atom v => .atom v
  | .group op ms => chain op ms

/-- Members joined by a connective, from the right. -/
def chain (op : Connective) : List Formula → Binary
  | [] => .atom ""
  | [m] => m.term
  | m :: n :: ms => .join op m.term (chain op (n :: ms))

end

open Binary

variable {op : Connective} {m : Formula} {xs ys : List Formula}

theorem chain_cons (nonempty : xs ≠ []) :
    chain op (m :: xs) = .join op m.term (chain op xs) := by
  obtain ⟨n, ms, rfl⟩ := List.exists_cons_of_ne_nil nonempty
  rw [chain]

/-- A member once more adds nothing. -/
theorem same_chain_of_mem (member : m ∈ xs) :
    Same (.join op m.term (chain op xs)) (chain op xs) := by
  induction xs with
  | nil => exact absurd member List.not_mem_nil
  | cons x xs ih =>
    by_cases last : xs = []
    · subst last
      obtain rfl := List.mem_singleton.mp member
      exact .idem op m.term
    rw [chain_cons last]
    rcases List.mem_cons.mp member with rfl | later
    · exact (Same.assoc op _ _ _).symm.trans (.join op (.idem op _) (.refl _))
    · exact (Same.left_comm op _ _ _).trans (.join op (.refl _) (ih later))

theorem same_chain_append (hx : xs ≠ []) (hy : ys ≠ []) :
    Same (chain op (xs ++ ys)) (.join op (chain op xs) (chain op ys)) := by
  induction xs with
  | nil => exact absurd rfl hx
  | cons x xs ih =>
    by_cases last : xs = []
    · subst last
      rw [List.singleton_append, chain_cons hy]
      exact .refl _
    rw [List.cons_append, chain_cons (List.append_ne_nil_of_left_ne_nil last ys), chain_cons last]
    exact (Same.join op (.refl _) (ih last)).trans (Same.assoc op _ _ _).symm

/-- Members that are all there already add nothing. -/
theorem same_chain_of_subset (hx : xs ≠ []) (subset : ∀ m ∈ xs, m ∈ ys) :
    Same (.join op (chain op xs) (chain op ys)) (chain op ys) := by
  induction xs with
  | nil => exact absurd rfl hx
  | cons x xs ih =>
    obtain ⟨first, rest⟩ := List.forall_mem_cons.mp subset
    by_cases last : xs = []
    · subst last
      exact same_chain_of_mem first
    rw [chain_cons last]
    exact (Same.assoc op _ _ _).trans
      ((Same.join op (.refl _) (ih last rest)).trans (same_chain_of_mem first))

theorem same_chain (hx : xs ≠ []) (hy : ys ≠ []) (same : ∀ m, m ∈ xs ↔ m ∈ ys) :
    Same (chain op xs) (chain op ys) := by
  have less : Same (.join op (chain op xs) (chain op ys)) (chain op ys) :=
    same_chain_of_subset hx fun m => (same m).mp
  have more : Same (.join op (chain op ys) (chain op xs)) (chain op xs) :=
    same_chain_of_subset hy fun m => (same m).mpr
  exact more.symm.trans ((Same.comm op _ _).trans less)

theorem chain_membersUnder (op : Connective) (f : Formula) :
    chain op (f.membersUnder op) = f.term := by
  cases f with
  | atom v => rfl
  | group op' ms =>
    rw [membersUnder]
    split
    next same => rw [term, same]
    next => rfl

theorem term_gather (nonempty : xs ≠ []) : (gather op xs).term = chain op (tidy xs) := by
  rcases gather_cases op nonempty with ⟨only, tidied, gathered⟩ | ⟨_, gathered⟩
  · rw [gathered, tidied, chain]
  · rw [gathered, term]

end Formula

namespace Binary

open Formula

/-- The laws lead from a term to its canonical formula. -/
theorem same_normal : ∀ a : Binary, Same a a.normal.term
  | .atom v => .refl _
  | .join op a b => by
    have nonempty := append_ne_nil a.canonical_normal op b.normal
    have sides : Same (chain op (a.normal.membersUnder op ++ b.normal.membersUnder op))
        (.join op a.normal.term b.normal.term) := by
      rw [← chain_membersUnder op a.normal, ← chain_membersUnder op b.normal]
      exact same_chain_append (a.canonical_normal.fits op).1 (b.canonical_normal.fits op).1
    rw [normal, term_gather nonempty]
    refine (Same.join op a.same_normal b.same_normal).trans (sides.symm.trans ?_)
    exact same_chain nonempty (tidy_ne_nil nonempty) fun _ => mem_tidy.symm

/-- Two terms have one canonical formula exactly if the laws make them equal. -/
theorem normal_eq_iff {a b : Binary} : a.normal = b.normal ↔ Same a b := by
  constructor
  · intro equal
    have back : Same a.normal.term b := equal ▸ b.same_normal.symm
    exact a.same_normal.trans back
  · exact Same.normal_eq

end Binary

end Clearance
