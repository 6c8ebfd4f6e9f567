import Clearance.Escape
import Clearance.Fault

/-! The authorizations that someone holds: a set of values, none of them empty when it is made
from a list. -/
namespace Clearance

/-- A set of values, in ascending order. -/
structure Held where
  values : List String
  ascending : values.Pairwise (compare · · = .lt)

namespace Held

def insertInto (v : String) : List String → List String
  | [] => [v]
  | w :: ws =>
    match compare v w with
    | .lt => v :: w :: ws
    | .eq => w :: ws
    | .gt => w :: insertInto v ws

theorem mem_insertInto {v x : String} {ws : List String} :
    x ∈ insertInto v ws ↔ x = v ∨ x ∈ ws := by
  induction ws with
  | nil => simp [insertInto]
  | cons w ws ih =>
    unfold insertInto
    split
    next => simp
    next h =>
      have := Std.LawfulEqOrd.eq_of_compare h
      grind
    next => grind

theorem ascending_insertInto {v : String} {ws : List String}
    (h : ws.Pairwise (compare · · = .lt)) : (insertInto v ws).Pairwise (compare · · = .lt) := by
  induction ws with
  | nil => simp [insertInto]
  | cons w ws ih =>
    have ⟨first, rest⟩ := List.pairwise_cons.1 h
    unfold insertInto
    split
    next lt =>
      refine List.pairwise_cons.2 ⟨fun x hx => ?_, h⟩
      rcases List.mem_cons.1 hx with rfl | hx
      · exact lt
      · exact Std.TransCmp.lt_trans lt (first x hx)
    next => exact h
    next gt =>
      refine List.pairwise_cons.2 ⟨fun x hx => ?_, ih rest⟩
      rcases mem_insertInto.1 hx with rfl | hx
      · exact Std.OrientedCmp.lt_of_gt gt
      · exact first x hx

def empty : Held := ⟨[], .nil⟩

def insert (v : String) (held : Held) : Held :=
  ⟨insertInto v held.values, ascending_insertInto held.ascending⟩

theorem mem_insert {held : Held} {v x : String} :
    x ∈ (held.insert v).values ↔ x = v ∨ x ∈ held.values :=
  mem_insertInto

/-- The set of the values of a list, whatever they are. -/
def ofList (vs : List String) : Held := vs.foldl (fun held v => held.insert v) empty

/-- The set of the values of a list that has no empty one. -/
def of? (vs : List String) : Except Fault Held :=
  if vs.any (·.isEmpty) then .error (.misuse .emptyAuthorization) else .ok (ofList vs)

def contains (held : Held) (v : String) : Bool := held.values.contains v

def size (held : Held) : Nat := held.values.length

def isEmpty (held : Held) : Bool := held.values.isEmpty

/-- The values in order, with commas between them. -/
def display (held : Held) : String := ",".intercalate held.values

/-- The values as they stand between quotes. -/
def bodies (held : Held) : List (List UInt8) :=
  held.values.map fun v => Escape.escape (Text.Utf8.bytes v)

instance : DecidableEq Held := fun a b =>
  if h : a.values = b.values then isTrue (by cases a; cases b; simp_all)
  else isFalse (by intro e; exact h (by rw [e]))

end Held

end Clearance
