import Clearance.Label

/-! The decision whether a label opens to what is held. The label is decided while it is read,
or from its tree: each token is put to the policy, and looked up only while the groups around
it are undecided. -/
namespace Clearance

/-- Answers, in a state, whether an authorization is held. -/
abbrev Authority (σ : Type) := String → StateM σ Bool

/-- Looks up one authorization, by its value or by its body as it stands in the label. -/
abbrev Lookup (σ : Type) := String → List UInt8 → StateM σ Bool

/-- What is held: some sets of bodies, each of which has to open a label, or an authority. -/
inductive Grants (σ : Type) where
  | sets (sets : List (List (List UInt8)))
  | authority (ask : Authority σ)

/-- Rules to read labels by, and what is held against them. -/
structure Gate (σ : Type) where
  rules : Rules σ
  grants : Grants σ

variable {σ : Type}

def Lookup.inSet (set : List (List UInt8)) : Lookup σ := fun _ body => pure (set.contains body)

def Lookup.ofAuthority (ask : Authority σ) : Lookup σ := fun value _ => ask value

namespace Grants

/-- Without any set, nothing is held. -/
def ofSets (sets : List Held) : Grants σ :=
  .sets (if sets.isEmpty then [[]] else sets.map Held.bodies)

/-- Decides with one set after the other, up to the first that does not open. -/
def decideSets (decide : Lookup σ → Run σ Bool) : List (List (List UInt8)) → Run σ Bool
  | [] => return true
  | set :: more => do if ← decide (.inSet set) then decideSets decide more else return false

def decide (grants : Grants σ) (decide : Lookup σ → Run σ Bool) : Run σ Bool :=
  match grants with
  | .sets all => decideSets decide all
  | .authority ask => decide (.ofAuthority ask)

end Grants

/-- Decides while reading: a group is the value of its members so far. -/
def Interpretation.deciding (policy : Policy σ) (lookup : Lookup σ) :
    Interpretation σ Bool (Connective × Bool) where
  empty := pure true
  leaf token live := do
    let value ← policy.accept token
    if live then lookup value token.body else return false
  begin op first _ := pure (op, first)
  undecided group := pure (group.1.undecided group.2)
  add group member _ := pure (group.1, group.1.join group.2 member)
  finish group _ := pure group.2

namespace Tree

mutual

/-- Decides a tree of the label `label`. -/
def decide (policy : Policy σ) (lookup : Lookup σ) (label : List UInt8) (live : Bool) :
    Tree → Run σ Bool
  | .empty => return true
  | .leaf span quoted value => do
    let value ← policy.check value (if quoted then .any else .basic)
    if live then lookup value (leafBody label span quoted) else return false
  | .group op _ members => decideMembers policy lookup label live op op.unit members

/-- Decides the members of a group that has come to `sofar`. -/
def decideMembers (policy : Policy σ) (lookup : Lookup σ) (label : List UInt8) (live : Bool)
    (op : Connective) (sofar : Bool) : List Tree → Run σ Bool
  | [] => return sofar
  | t :: ts => do
    let value ← t.decide policy lookup label (live && op.undecided sofar)
    decideMembers policy lookup label live op (op.join sofar value) ts

end

end Tree

def Rules.gateForAll (rules : Rules σ) (sets : List Held) : Gate σ := ⟨rules, .ofSets sets⟩

def Rules.gate (rules : Rules σ) (held : Held) : Gate σ := rules.gateForAll [held]

def Rules.gateOf (rules : Rules σ) (ask : Authority σ) : Gate σ := ⟨rules, .authority ask⟩

namespace Gate

def decide (gate : Gate σ) (label : List UInt8) : Run σ Bool :=
  gate.grants.decide fun lookup => gate.rules.read (.deciding gate.rules.policy lookup) label

def decideTree (gate : Gate σ) (label : List UInt8) (tree : Tree) : Run σ Bool :=
  gate.grants.decide fun lookup => tree.decide gate.rules.policy lookup label true

/-- Decides a label from its tree if one is kept, and from its text otherwise. -/
def decideLabel (gate : Gate σ) (x : Label σ) : Run σ Bool :=
  match x.kept? with
  | some kept => gate.decideTree x.bytes kept.tree
  | none => gate.decide x.bytes

/-- The gate in a line. -/
def describe (gate : Gate σ) : String :=
  "AccessEvaluator \x7b " ++
    (match gate.grants with
     | .sets all => "sets: " ++ toString all.length
     | .authority _ => "authorizer: \"..\"") ++ " \x7d"

end Gate

end Clearance
