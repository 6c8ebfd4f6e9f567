/-! Stretches of a text, by the offsets of their bytes. -/
namespace Clearance

/-- From the byte at `start` up to the byte before `stop`. -/
structure Span where
  start : Nat
  stop : Nat
  deriving DecidableEq, Repr

namespace Span

/-- The least span that covers both. -/
def merge (a b : Span) : Span := ⟨min a.start b.start, max a.stop b.stop⟩

def length (s : Span) : Nat := s.stop - s.start

def isEmpty (s : Span) : Bool := s.start == s.stop

/-- The elements of a list that a span covers. -/
def slice (s : Span) (xs : List α) : List α := (xs.drop s.start).take s.length

end Span

end Clearance
