import Clearance.Alphabet

/-! Escaping, over characters and over bytes alike. Escaped text is what may stand between two
quotes: `escape` writes a mark before each quote and each mark, `unescape` reads exactly that
and nothing else, and `strip` takes the marks out of any text. -/
namespace Clearance

/-- An alphabet with a quote and an escape mark. -/
class Marked (α : Type) where
  quote : α
  escape : α
  quote_ne_escape : quote ≠ escape

instance : Marked Char := ⟨'"', '\\', by decide⟩

instance : Marked UInt8 := ⟨quoteByte, escapeByte, by decide⟩

namespace Escape

/-- What keeps a text from being an escaped one. -/
inductive Flaw where
  | looseEscape
  | looseQuote
  deriving DecidableEq, Repr

variable {α : Type} [DecidableEq α] [Marked α]

def isMark (x : α) : Bool := x == Marked.quote || x == Marked.escape

def escape (xs : List α) : List α :=
  xs.flatMap fun x => if isMark x then [Marked.escape, x] else [x]

/-- Drops each escape mark that no other mark keeps, and keeps what follows it. -/
def strip : List α → List α
  | [] => []
  | x :: xs =>
    if x = Marked.escape then
      match xs with
      | [] => []
      | y :: ys => y :: strip ys
    else x :: strip xs

/-- The text that was escaped, if each mark in it stands where escaping puts one. -/
def unescape : List α → Except Flaw (List α)
  | [] => .ok []
  | x :: xs =>
    if x = Marked.escape then
      match xs with
      | [] => .error .looseEscape
      | y :: ys => if isMark y then (y :: ·) <$> unescape ys else .error .looseEscape
    else if x = Marked.quote then .error .looseQuote
    else (x :: ·) <$> unescape xs

end Escape

end Clearance
