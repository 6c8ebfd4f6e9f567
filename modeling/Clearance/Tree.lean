import Clearance.Formula.Normal
import Clearance.Formula.Written
import Clearance.Policy

/-! The tree of a label. It follows the label closely: a group for each run of terms, no group
for a pair of parentheses, and for each part the bytes that it was read from. -/
namespace Clearance

/-- The span of a token has its quotes, and the span of a group has no parentheses of its own. -/
inductive Tree where
  | empty
  | leaf (span : Span) (quoted : Bool) (value : String)
  | group (op : Connective) (span : Span) (members : List Tree)
  deriving Repr

namespace Tree

mutual

def decEq : (a b : Tree) → Decidable (a = b)
  | .empty, .empty => isTrue rfl
  | .leaf s q v, .leaf s' q' v' =>
    if h : s = s' ∧ q = q' ∧ v = v' then isTrue (by rw [h.1, h.2.1, h.2.2])
    else isFalse (by simpa using h)
  | .group op s ms, .group op' s' ms' =>
    if h : op = op' ∧ s = s' then
      match decEqMembers ms ms' with
      | isTrue h' => isTrue (by rw [h.1, h.2, h'])
      | isFalse h' => isFalse (by simp [h'])
    else isFalse (by intro e; injection e; exact h ⟨by assumption, by assumption⟩)
  | .empty, .leaf .. | .empty, .group .. | .leaf .., .empty | .leaf .., .group ..
  | .group .., .empty | .group .., .leaf .. => isFalse (by simp)

def decEqMembers : (as bs : List Tree) → Decidable (as = bs)
  | [], [] => isTrue rfl
  | a :: as, b :: bs =>
    match decEq a b, decEqMembers as bs with
    | isTrue h, isTrue h' => isTrue (by rw [h, h'])
    | isFalse h, _ => isFalse (by simp [h])
    | _, isFalse h => isFalse (by simp [h])
  | [], _ :: _ => isFalse (by simp)
  | _ :: _, [] => isFalse (by simp)

end

instance : DecidableEq Tree := decEq

def span : Tree → Span
  | .empty => ⟨0, 0⟩
  | .leaf span _ _ | .group _ span _ => span

def members : Tree → List Tree
  | .group _ _ members => members
  | _ => []

def connective? : Tree → Option Connective
  | .group op _ _ => some op
  | _ => none

/-- The part of its label that a tree was read from, if that part is text. -/
def text? (label : List UInt8) (t : Tree) : Option String :=
  Text.Utf8.decode? (t.span.slice label)

def text (label : List UInt8) (t : Tree) : String := (t.text? label).getD ""

/-- What stands between the quotes of a token, or all of a token without quotes. -/
def leafBody (label : List UInt8) (span : Span) (quoted : Bool) : List UInt8 :=
  let text := span.slice label
  if quoted && 2 ≤ text.length then text.tail.dropLast else text

mutual

/-- The tree and all trees within it, each before its members, with how deep they lie. -/
def nodes (depth : Nat) : Tree → List (Nat × Tree)
  | .empty => [(depth, .empty)]
  | .leaf span quoted value => [(depth, .leaf span quoted value)]
  | .group op span members => (depth, .group op span members) :: memberNodes (depth + 1) members

def memberNodes (depth : Nat) : List Tree → List (Nat × Tree)
  | [] => []
  | t :: ts => t.nodes depth ++ memberNodes depth ts

end

mutual

/-- The values of the leaves, in the order of the label. -/
def values : Tree → List String
  | .empty => []
  | .leaf _ _ value => [value]
  | .group _ _ members => memberValues members

def memberValues : List Tree → List String
  | [] => []
  | t :: ts => t.values ++ memberValues ts

end

mutual

def formula? : Tree → Option Formula
  | .empty => none
  | .leaf _ _ value => some (.atom value)
  | .group op _ members => some (.group op (formulas members))

def formulas : List Tree → List Formula
  | [] => []
  | t :: ts =>
    match t.formula? with
    | some f => f :: formulas ts
    | none => formulas ts

end

/-- The label of the normal form. -/
def normalized (t : Tree) : String :=
  match t.formula? with
  | some f => f.normal.written
  | none => ""

end Tree

/-- Builds the tree, and asks the policy about each token. -/
def Interpretation.building {σ : Type} (policy : Policy σ) :
    Interpretation σ Tree (Connective × Array Tree) where
  empty := pure .empty
  leaf token _ := do return .leaf token.span token.quoted (← policy.accept token)
  begin op first _ := pure (op, #[first])
  undecided _ := pure true
  add group member _ := pure (group.1, group.2.push member)
  finish group span := pure (.group group.1 span group.2.toList)

end Clearance
