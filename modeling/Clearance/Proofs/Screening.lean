import Clearance.Proofs.Reading

/-! Readings whose outcome is a matter of the tokens they are handed. An interpretation screens
tokens if it refuses some of them, may write something down about each, and neither fails nor
writes otherwise. Its reading of a label then fails with the first token that it refuses, or, if
it refuses none, with what the label itself does wrong. -/
namespace Clearance

variable {σ ν γ α β ε : Type}

/-- What a run from `s` fails with, if it fails. -/
def Run.fault? (x : Run σ α) (s : σ) : Option Fault :=
  match (x.on s).1 with
  | .ok _ => none
  | .error fault => some fault

theorem Run.fault?_eq_none {x : Run σ α} {s : σ} :
    x.fault? s = none ↔ ∃ a t, x.on s = (.ok a, t) := by
  rw [Run.fault?]
  rcases x.on s with ⟨_ | a, t⟩ <;> simp

theorem Run.fault?_eq_some {x : Run σ α} {s : σ} {fault : Fault} :
    x.fault? s = some fault ↔ ∃ t, x.on s = (.error fault, t) := by
  rw [Run.fault?]
  rcases x.on s with ⟨_ | a, t⟩ <;> simp

/-- How tokens are screened: what a token is refused with, and what is written down about it. -/
structure Screen (ε : Type) where
  refusal? : Token → Option Fault
  note : Token → List ε

namespace Screen

variable {screen : Screen ε}

/-- What is written down about tokens, up to the first that is refused. -/
def notes (screen : Screen ε) : List Token → List ε
  | [] => []
  | t :: ts => screen.note t ++ if (screen.refusal? t).isSome then [] else screen.notes ts

theorem notes_append (screen : Screen ε) (ts us : List Token) :
    screen.notes (ts ++ us) = screen.notes ts ++
      if (ts.findSome? screen.refusal?).isSome then [] else screen.notes us := by
  induction ts with
  | nil => rfl
  | cons t ts ih =>
    rw [List.cons_append, notes, notes, ih, List.findSome?_cons]
    cases screen.refusal? t <;> simp

theorem findSome?_of_accepted (accepted : ∀ t, screen.refusal? t = none) (ts : List Token) :
    ts.findSome? screen.refusal? = none :=
  List.findSome?_eq_none_iff.mpr fun t _ => accepted t

/-- Where no token is refused, something is written down about each. -/
theorem notes_of_accepted (accepted : ∀ t, screen.refusal? t = none) (ts : List Token) :
    screen.notes ts = ts.flatMap screen.note := by
  induction ts with
  | nil => rfl
  | cons t ts ih => simp [notes, ih, accepted]

end Screen

/-- A run that screens `tokens`, one after the other, and then stops, with a fault if there is one
in `stop?`. In each state `log` tells what has been written down. -/
def Run.Screened (screen : Screen ε) (log : σ → List ε) (x : Run σ α) (tokens : List Token)
    (stop? : Option Fault) : Prop :=
  ∀ s, x.fault? s = (tokens.findSome? screen.refusal?).or stop? ∧
    log (x.on s).2 = log s ++ screen.notes tokens

namespace Run

variable {screen : Screen ε} {log : σ → List ε} {tokens more : List Token} {stop? : Option Fault}

theorem screened_pure (a : α) : Screened screen log (pure a : Run σ α) [] none :=
  fun _ => ⟨rfl, (List.append_nil _).symm⟩

theorem screened_throw (fault : Fault) :
    Screened screen log (throw fault : Run σ α) [] (some fault) :=
  fun _ => ⟨rfl, (List.append_nil _).symm⟩

theorem screened_lift {x : StateM σ α} (keeps : ∀ s, log (x s).2 = log s) :
    Screened screen log (liftM x : Run σ α) [] none :=
  fun s => ⟨rfl, (keeps s).trans (List.append_nil _).symm⟩

theorem Screened.bind {x : Run σ α} {f : α → Run σ β} (first : Screened screen log x tokens none)
    (second : ∀ a, Screened screen log (f a) more stop?) :
    Screened screen log (x >>= f) (tokens ++ more) stop? := by
  intro s
  obtain ⟨outcome, written⟩ := first s
  rw [Option.or_none] at outcome
  rw [fault?, on_bind, List.findSome?_append, screen.notes_append, ← outcome]
  rw [fault?]
  -- A fault of the first part is a refusal in it, behind which nothing is written down.
  rcases run : x.on s with ⟨_ | a, t⟩
  · rw [run] at written
    exact ⟨rfl, by simpa using written⟩
  · rw [run] at written
    obtain ⟨outcome', written'⟩ := second a t
    exact ⟨outcome', by simpa [written] using written'⟩

theorem Screened.fault?_of_accepted {x : Run σ α} (screened : Screened screen log x tokens stop?)
    (accepted : ∀ t, screen.refusal? t = none) (s : σ) : x.fault? s = stop? := by
  rw [(screened s).1, screen.findSome?_of_accepted accepted, Option.none_or]

/-- What comes behind the last token. -/
theorem Screened.after {x : Run σ α} {f : α → Run σ β} (first : Screened screen log x tokens none)
    (second : ∀ a, Screened screen log (f a) [] stop?) :
    Screened screen log (x >>= f) tokens stop? := by
  have whole := first.bind second
  rwa [List.append_nil] at whole

end Run

/-- An interpretation whose readings are a matter of how tokens are screened. -/
structure Interpretation.Screens (screen : Screen ε) (log : σ → List ε)
    (i : Interpretation σ ν γ) : Prop where
  empty : Run.Screened screen log i.empty [] none
  leaf (w : Grammar.Word) (offset : Nat) (live : Bool) :
    Run.Screened screen log (i.leaf (w.token offset) live) [w.token offset] none
  begin (op : Connective) (first : ν) (span : Span) (s : σ) :
    log (i.begin op first span s).2 = log s
  undecided (group : γ) (s : σ) : log (i.undecided group s).2 = log s
  add (group : γ) (member : ν) (span : Span) (s : σ) : log (i.add group member span s).2 = log s
  finish (group : γ) (span : Span) : Run.Screened screen log (i.finish group span) [] none

theorem Interpretation.Screens.memberLive {screen : Screen ε} {log : σ → List ε}
    {i : Interpretation σ ν γ} (screens : i.Screens screen log) (live : Bool) (group : γ) (s : σ) :
    log (i.memberLive live group s).2 = log s := by
  cases live with
  | true => exact screens.undecided group s
  | false => rfl

namespace Grammar

mutual

/-- The tokens of an expression that begins at `offset`, in the order of its text. -/
def Expression.tokens (offset : Nat) : Expression → List Token
  | .single t => t.tokens offset
  | .group _ first others => first.tokens offset ++ others.tokens (offset + first.text.length)

def Term.tokens (offset : Nat) : Term → List Token
  | .word w => [w.token offset]
  | .enclosed x => x.tokens (offset + 1)

/-- The tokens of the members; `offset` is that of the connective before the first of them. -/
def Members.tokens (offset : Nat) : Members → List Token
  | .last t => t.tokens (offset + 1)
  | .more t others => t.tokens (offset + 1) ++ others.tokens (offset + 1 + t.text.length)

end

mutual

/-- The tokens before the place where an expression breaks off. -/
def BrokenExpression.tokens (offset : Nat) : BrokenExpression → List Token
  | .first t => t.tokens offset
  | .group _ first others => first.tokens offset ++ others.tokens (offset + first.text.length)

def BrokenTerm.tokens (offset : Nat) : BrokenTerm → List Token
  | .absent _ => []
  | .within x => x.tokens (offset + 1)
  | .unclosed x _ => x.tokens (offset + 1)

def BrokenMembers.tokens (offset : Nat) : BrokenMembers → List Token
  | .here t => t.tokens (offset + 1)
  | .mixed t _ => t.tokens (offset + 1)
  | .later t others => t.tokens (offset + 1) ++ others.tokens (offset + 1 + t.text.length)

end

/-- The tokens that a reading is handed. -/
def Outline.tokens : Outline → List Token
  | .empty => []
  | .whole x | .leftOver x _ => x.tokens 0
  | .broken b => b.tokens 0

/-- What a label does wrong, whatever its tokens stand for. -/
def Outline.fault? : Outline → Option Fault
  | .empty | .whole _ => none
  | .leftOver _ fault => some fault
  | .broken b => some b.fault

variable {screen : Screen ε} {log : σ → List ε} {i : Interpretation σ ν γ}

mutual

theorem Expression.replay_screened (screens : i.Screens screen log) : ∀ (x : Expression)
    (live : Bool) (offset : Nat),
      Run.Screened screen log (x.replay i live offset) (x.tokens offset) none
  | .single t, live, offset => t.replay_screened screens live offset
  | .group op first others, live, offset =>
    (first.replay_screened screens live offset).bind fun node =>
      (Run.screened_lift (screens.begin op node _)).bind fun group =>
        (others.replay_screened screens live _ group).after fun group => screens.finish group _

theorem Term.replay_screened (screens : i.Screens screen log) : ∀ (t : Term)
    (live : Bool) (offset : Nat),
      Run.Screened screen log (t.replay i live offset) (t.tokens offset) none
  | .word w, live, offset => screens.leaf w offset live
  | .enclosed x, live, offset => x.replay_screened screens live (offset + 1)

theorem Members.replay_screened (screens : i.Screens screen log) : ∀ (ms : Members)
    (live : Bool) (offset : Nat) (group : γ),
      Run.Screened screen log (ms.replay i live offset group) (ms.tokens offset) none
  | .last t, live, offset, group =>
    (Run.screened_lift (screens.memberLive live group)).bind fun memberLive =>
      (t.replay_screened screens memberLive (offset + 1)).after fun node =>
        Run.screened_lift (screens.add group node _)
  | .more t others, live, offset, group =>
    (Run.screened_lift (screens.memberLive live group)).bind fun memberLive =>
      (t.replay_screened screens memberLive (offset + 1)).bind fun node =>
        (Run.screened_lift (screens.add group node _)).bind fun group =>
          others.replay_screened screens live _ group

end

mutual

theorem BrokenExpression.replay_screened (screens : i.Screens screen log) :
    ∀ (x : BrokenExpression) (live : Bool) (offset : Nat), Run.Screened screen log
      (x.replay i live offset : Run σ α) (x.tokens offset) (some x.fault)
  | .first t, live, offset => t.replay_screened screens live offset
  | .group op first others, live, offset =>
    (first.replay_screened screens live offset).bind fun node =>
      (Run.screened_lift (screens.begin op node _)).bind fun group =>
        others.replay_screened screens live _ group

theorem BrokenTerm.replay_screened (screens : i.Screens screen log) :
    ∀ (t : BrokenTerm) (live : Bool) (offset : Nat), Run.Screened screen log
      (t.replay i live offset : Run σ α) (t.tokens offset) (some t.fault)
  | .absent fault, _, _ => Run.screened_throw fault
  | .within x, live, offset => x.replay_screened screens live (offset + 1)
  | .unclosed x fault, live, offset =>
    (x.replay_screened screens live (offset + 1)).after fun _ => Run.screened_throw fault

theorem BrokenMembers.replay_screened (screens : i.Screens screen log) :
    ∀ (ms : BrokenMembers) (live : Bool) (offset : Nat) (group : γ), Run.Screened screen log
      (ms.replay i live offset group : Run σ α) (ms.tokens offset) (some ms.fault)
  | .here t, live, offset, group =>
    (Run.screened_lift (screens.memberLive live group)).bind fun memberLive =>
      t.replay_screened screens memberLive (offset + 1)
  | .mixed t fault, live, offset, group =>
    ((Members.last t).replay_screened screens live offset group).after fun _ =>
      Run.screened_throw fault
  | .later t others, live, offset, group =>
    ((Members.last t).replay_screened screens live offset group).bind fun group =>
      others.replay_screened screens live _ group

end

theorem Outline.replay_screened (screens : i.Screens screen log) (outline : Outline) :
    Run.Screened screen log (outline.replay i) outline.tokens outline.fault? := by
  cases outline with
  | empty => exact screens.empty
  | whole x => exact x.replay_screened screens true 0
  | leftOver x fault =>
    exact (x.replay_screened screens true 0).after fun _ => Run.screened_throw fault
  | broken b => exact b.replay_screened screens true 0

end Grammar

end Clearance
