import Clearance.Interpretation
import Clearance.Proofs.Grammar

/-! What an interpretation makes of a derivation, without any reading: the parts are handed
over one by one, in the order of the text. A reading that fails does the same up to some place
and breaks off there. -/
namespace Clearance.Grammar

variable {σ ν γ α : Type}

mutual

/-- Hands over the parts of an expression that begins at `offset`. -/
def Expression.replay (i : Interpretation σ ν γ) (live : Bool) (offset : Nat) :
    Expression → Run σ ν
  | .single t => t.replay i live offset
  | .group op first others => do
    let node ← first.replay i live offset
    let group ← i.begin op node ⟨offset, offset + first.text.length⟩
    let group ← others.replay i live (offset + first.text.length) group
    i.finish group ⟨offset, offset + first.text.length + (others.text op).length⟩

def Term.replay (i : Interpretation σ ν γ) (live : Bool) (offset : Nat) : Term → Run σ ν
  | .word w => i.leaf (w.token offset) live
  | .enclosed x => x.replay i live (offset + 1)

/-- Adds the members to a group; `offset` is that of the connective before the first of them. -/
def Members.replay (i : Interpretation σ ν γ) (live : Bool) (offset : Nat) (group : γ) :
    Members → Run σ γ
  | .last t => do
    let memberLive ← i.memberLive live group
    let node ← t.replay i memberLive (offset + 1)
    i.add group node ⟨offset + 1, offset + 1 + t.text.length⟩
  | .more t others => do
    let memberLive ← i.memberLive live group
    let node ← t.replay i memberLive (offset + 1)
    let group ← i.add group node ⟨offset + 1, offset + 1 + t.text.length⟩
    others.replay i live (offset + 1 + t.text.length) group

end

mutual

/-- An expression that breaks off, in its first term or among the other members. -/
inductive BrokenExpression where
  | first (term : BrokenTerm)
  | group (op : Connective) (first : Term) (others : BrokenMembers)

/-- A term that breaks off: nothing of it can be read, or what stands in its parentheses breaks
off, or no parenthesis closes it. -/
inductive BrokenTerm where
  | absent (fault : Fault)
  | within (inner : BrokenExpression)
  | unclosed (inner : Expression) (fault : Fault)

/-- Members of which one breaks off, or stands before the connective of another group. -/
inductive BrokenMembers where
  | here (term : BrokenTerm)
  | mixed (term : Term) (fault : Fault)
  | later (term : Term) (others : BrokenMembers)

end

mutual

/-- The fault that an expression breaks off with. -/
def BrokenExpression.fault : BrokenExpression → Fault
  | .first t => t.fault
  | .group _ _ others => others.fault

def BrokenTerm.fault : BrokenTerm → Fault
  | .absent fault => fault
  | .within x => x.fault
  | .unclosed _ fault => fault

def BrokenMembers.fault : BrokenMembers → Fault
  | .here t => t.fault
  | .mixed _ fault => fault
  | .later _ others => others.fault

end

mutual

/-- Hands over the parts up to the place where the expression breaks off. -/
def BrokenExpression.replay (i : Interpretation σ ν γ) (live : Bool) (offset : Nat) :
    BrokenExpression → Run σ α
  | .first t => t.replay i live offset
  | .group op first others => do
    let node ← first.replay i live offset
    let group ← i.begin op node ⟨offset, offset + first.text.length⟩
    others.replay i live (offset + first.text.length) group

def BrokenTerm.replay (i : Interpretation σ ν γ) (live : Bool) (offset : Nat) :
    BrokenTerm → Run σ α
  | .absent fault => throw fault
  | .within x => x.replay i live (offset + 1)
  | .unclosed x fault => do
    let _ ← x.replay i live (offset + 1)
    throw fault

def BrokenMembers.replay (i : Interpretation σ ν γ) (live : Bool) (offset : Nat) (group : γ) :
    BrokenMembers → Run σ α
  | .here t => do
    let memberLive ← i.memberLive live group
    t.replay i memberLive (offset + 1)
  | .mixed t fault => do
    let _ ← (Members.last t).replay i live offset group
    throw fault
  | .later t others => do
    let group ← (Members.last t).replay i live offset group
    others.replay i live (offset + 1 + t.text.length) group

end

mutual

/-- Nothing comes behind a break. -/
theorem BrokenExpression.replay_bind {β : Type} (i : Interpretation σ ν γ) (f : α → Run σ β) :
    ∀ (x : BrokenExpression) (live : Bool) (offset : Nat),
      x.replay i live offset >>= f = x.replay i live offset
  | .first t, live, offset => t.replay_bind i f live offset
  | .group op first others, live, offset => by
    simp only [BrokenExpression.replay, bind_assoc]
    apply bind_congr
    intro node
    apply bind_congr
    intro group
    exact others.replay_bind i f live _ group

theorem BrokenTerm.replay_bind {β : Type} (i : Interpretation σ ν γ) (f : α → Run σ β) :
    ∀ (t : BrokenTerm) (live : Bool) (offset : Nat),
      t.replay i live offset >>= f = t.replay i live offset
  | .absent _, _, _ => rfl
  | .within x, live, offset => x.replay_bind i f live (offset + 1)
  | .unclosed x _, live, offset => by
    simp only [BrokenTerm.replay, bind_assoc]
    rfl

theorem BrokenMembers.replay_bind {β : Type} (i : Interpretation σ ν γ) (f : α → Run σ β) :
    ∀ (ms : BrokenMembers) (live : Bool) (offset : Nat) (group : γ),
      ms.replay i live offset group >>= f = ms.replay i live offset group
  | .here t, live, offset, group => by
    simp only [BrokenMembers.replay, bind_assoc]
    exact bind_congr fun memberLive => t.replay_bind i f memberLive _
  | .mixed _ _, live, offset, group => by
    simp only [BrokenMembers.replay, bind_assoc]
    rfl
  | .later t others, live, offset, group => by
    simp only [BrokenMembers.replay, bind_assoc]
    exact bind_congr fun group => others.replay_bind i f live _ group

end

theorem Members.replay_more (i : Interpretation σ ν γ) (live : Bool) (offset : Nat) (group : γ)
    (t : Term) (others : Members) :
    (Members.more t others).replay i live offset group =
      (Members.last t).replay i live offset group >>=
        others.replay i live (offset + 1 + t.text.length) := by
  simp only [Members.replay, bind_assoc]

/-- Where it is known beforehand whether a group is decided. -/
theorem Members.replay_last {i : Interpretation σ ν γ} {group : γ} {b : Bool}
    (known : i.undecided group = pure b) (live : Bool) (offset : Nat) (t : Term) :
    (Members.last t).replay i live offset group =
      t.replay i (live && b) (offset + 1) >>= fun node =>
        i.add group node ⟨offset + 1, offset + 1 + t.text.length⟩ := by
  rw [Members.replay, Interpretation.memberLive_of_pure known]
  rfl

end Clearance.Grammar
