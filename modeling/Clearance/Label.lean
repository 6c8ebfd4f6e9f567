import Clearance.Held
import Clearance.Rules

/-! Labels that have been checked. A label remembers the rules it was checked by and, once it
has been asked for, its tree. Labels are equal if their texts are. -/
namespace Clearance

/-- A tree and the stamp of the request that built it. Trees of one stamp are one tree. -/
structure KeptTree where
  tree : Tree
  stamp : Nat

structure Label (σ : Type) where
  text : String
  rules : Rules σ
  kept? : Option KeptTree := none

namespace Rules

variable {σ : Type}

def label (rules : Rules σ) (text : String) : Run σ (Label σ) := do
  rules.validate (Text.Utf8.bytes text)
  return { text, rules }

/-- A label from bytes. Bytes that pass the rules are text. -/
def labelOfBytes (rules : Rules σ) (bytes : List UInt8) : Run σ (Label σ) := do
  rules.validate bytes
  match Text.Utf8.decode? bytes with
  | some text => return { text, rules }
  | none => throw (.misuse (.notText (Text.Utf8.defect bytes)))

end Rules

namespace Label

variable {σ : Type}

def bytes (x : Label σ) : List UInt8 := Text.Utf8.bytes x.text

/-- The label with its tree kept, under `stamp` if no tree has been kept before. -/
def keep (x : Label σ) (stamp : Nat) : Run σ (Label σ × Tree) := do
  match x.kept? with
  | some kept => return (x, kept.tree)
  | none =>
    let tree ← x.rules.parse x.bytes
    return ({ x with kept? := some ⟨tree, stamp⟩ }, tree)

/-- The normal form, for which the tree is kept. -/
def normalize (x : Label σ) (stamp : Nat) : Run σ (Label σ × String) := do
  let (x, tree) ← x.keep stamp
  return (x, tree.normalized)

/-- The authorizations that the label mentions, from the tree if one is kept. -/
def mentions (x : Label σ) : Run σ Held :=
  match x.kept? with
  | some kept => return Held.ofList kept.tree.values
  | none => do
    let (outcome, s, held) := (x.rules.visit x.bytes Held.insert).on (← get, Held.empty)
    set s
    match outcome with
    | .ok () => return held
    | .error fault => throw fault

def same (x y : Label σ) : Bool := x.text == y.text

/-- Whether two kept trees are one. -/
def sharesTree (a b : KeptTree) : Bool := a.stamp == b.stamp

/-- Whether two kept trees look alike, their label included. -/
def sameTree (x y : Label σ) (a b : KeptTree) : Bool := x.same y && decide (a.tree = b.tree)

/-- The label in a line. -/
def describe (x : Label σ) : String := "AccessExpression(" ++ Text.literal x.text ++ ")"

end Label

end Clearance
