import Clearance.Proofs.Family
import Clearance.Proofs.Machine

/-! What readings uphold. If each part of an interpretation leaves a property of the state in
force, so does every step of the machine, and then every reading, however it ends. The tokens that
are handed over are words, so a part need do so for words alone, and a policy or a lookup for values
that are not empty. -/
namespace Clearance

variable {σ τ ν γ α β : Type} {inv : σ → Prop} {policy : Policy σ}

/-- A step that leaves a property of the state in force. -/
def StepUpholds (inv : σ → Prop) (x : StateM σ α) : Prop := ∀ s, inv s → inv (x s).2

/-- A run that leaves a property of the state in force, be it that it fails. -/
def Run.Upholds (inv : σ → Prop) (x : Run σ α) : Prop := ∀ s, inv s → inv (x.on s).2

namespace Run

theorem upholds_pure (a : α) : Upholds inv (pure a : Run σ α) := fun _ => id

theorem upholds_throw (fault : Fault) : Upholds inv (throw fault : Run σ α) := fun _ => id

theorem upholds_lift {x : StateM σ α} (step : StepUpholds inv x) :
    Upholds inv (liftM x : Run σ α) :=
  step

theorem Upholds.bind {x : Run σ α} {f : α → Run σ β} (first : Upholds inv x)
    (second : ∀ a, Upholds inv (f a)) : Upholds inv (x >>= f) := by
  intro s holds
  have between := first s holds
  rw [on_bind]
  rcases run : x.on s with ⟨fault | a, t⟩
  · rwa [run] at between
  · rw [run] at between
    exact second a t between

end Run

/-- An interpretation that leaves a property of the state in force, as long as it is handed
words. -/
structure Interpretation.Upholds (inv : σ → Prop) (i : Interpretation σ ν γ) : Prop where
  empty : Run.Upholds inv i.empty
  leaf (w : Grammar.Word) (offset : Nat) (live : Bool) :
    Run.Upholds inv (i.leaf (w.token offset) live)
  begin (op : Connective) (first : ν) (span : Span) : StepUpholds inv (i.begin op first span)
  undecided (group : γ) : StepUpholds inv (i.undecided group)
  add (group : γ) (member : ν) (span : Span) : StepUpholds inv (i.add group member span)
  finish (group : γ) (span : Span) : Run.Upholds inv (i.finish group span)

namespace Interpretation.Upholds

variable {i : Interpretation σ ν γ} {label : List UInt8}

theorem memberLive (upholds : i.Upholds inv) (live : Bool) (group : γ) :
    StepUpholds inv (i.memberLive live group) := by
  cases live with
  | true => exact upholds.undecided group
  | false => exact fun _ => id

open Machine Run

theorem step (upholds : i.Upholds inv) (limit : UInt32) (m : Configuration ν γ label) :
    Run.Upholds inv (Machine.step i limit m) := by
  obtain ⟨control, waiting⟩ := m
  cases control with
  | read =>
    rw [Machine.step]
    split
    · exact upholds.empty.bind fun _ => upholds_pure _
    · exact upholds_pure _
  | expression live depth c => exact upholds_pure _
  | term live depth c =>
    rw [Machine.step]
    split
    · split
      · exact upholds_throw _
      · exact upholds_pure _
    · split
      · exact upholds_throw _
      next t next scanned =>
        obtain ⟨w, _, _, rfl, _⟩ := Cursor.token_sound scanned
        exact (upholds.leaf w c.offset live).bind fun _ => upholds_pure _
  | siblings live depth op group span opening c =>
    rw [Machine.step]
    split
    · exact (upholds_lift (upholds.memberLive live group)).bind fun _ => upholds_pure _
    · split
      · exact upholds_throw _
      · exact (upholds.finish group span).bind fun _ => upholds_pure _
  | returned node span next =>
    cases waiting with
    | nil => exact upholds_pure _
    | cons frame waiting =>
      cases frame with
      | whole =>
        rw [Machine.step]
        split
        · exact upholds_pure _
        · exact upholds_throw _
      | first live depth opening =>
        rw [Machine.step]
        split
        · exact upholds_pure _
        next op _ => exact (upholds_lift (upholds.begin op node span)).bind fun _ => upholds_pure _
      | member live depth op group covered opening c =>
        exact (upholds_lift (upholds.add group node span)).bind fun _ => upholds_pure _
      | inner live depth opening =>
        rw [Machine.step]
        split
        · exact upholds_throw _
        · exact upholds_pure _
  | halted node => exact upholds_pure _

theorem run (upholds : i.Upholds inv) (limit : UInt32) (n : Nat) :
    ∀ m : Configuration ν γ label, Run.Upholds inv (Machine.run i limit n m) := by
  induction n with
  | zero => exact fun m => upholds_pure m
  | succ n ih => exact fun m => (upholds.step limit m).bind ih

/-- The machine halts with what the reading gives, in the state that the reading leaves. -/
theorem read (upholds : i.Upholds inv) (limit : UInt32) (label : List UInt8) :
    Run.Upholds inv (i.read limit label) := by
  intro s holds
  have halts := upholds.run limit (6 * label.length + 7) (initial ν γ label) s holds
  rwa [run_initial i limit label 0, bind_pure_comp, on_map] at halts

end Interpretation.Upholds

open Grammar

/-- A policy that leaves a property of the state in force, as long as it is not asked about the
empty value. -/
def Policy.Upholds (inv : σ → Prop) (policy : Policy σ) : Prop :=
  ∀ value charset, value ≠ "" → StepUpholds inv (policy value charset)

/-- A lookup that leaves a property of the state in force, as long as neither the value nor the body
is empty. -/
def Lookup.Upholds (inv : σ → Prop) (lookup : Lookup σ) : Prop :=
  ∀ value body, value ≠ "" → body ≠ [] → StepUpholds inv (lookup value body)

/-- A word that stands for no text is not asked about. -/
theorem Policy.Upholds.accept_bind (asks : policy.Upholds inv) (w : Word) (offset : Nat)
    {f : String → Run σ β} (later : ∀ v ≠ "", Run.Upholds inv (f v)) :
    Run.Upholds inv (policy.accept (w.token offset) >>= f) := by
  cases text : w.value? with
  | none =>
    rw [Policy.accept, w.value_token, text]
    exact Run.upholds_throw _
  | some v =>
    have nonempty := Word.value_ne_empty text
    rw [Word.accept_of_value text, Policy.check, bind_assoc]
    refine (Run.upholds_lift (asks v w.charset nonempty)).bind fun allowed => ?_
    cases allowed with
    | true => exact later v nonempty
    | false => exact Run.upholds_throw _

/-- What is beside the state of a policy is not touched. -/
theorem Policy.Upholds.beside (asks : policy.Upholds inv) (known : τ → Prop) :
    (policy.beside : Policy (σ × τ)).Upholds fun s => inv s.1 ∧ known s.2 :=
  fun v charset nonempty s holds => ⟨asks v charset nonempty s.1 holds.1, holds.2⟩

namespace Interpretation

theorem checking_upholds (asks : policy.Upholds inv) : (checking policy).Upholds inv where
  empty := Run.upholds_pure ()
  leaf w offset _ := asks.accept_bind w offset fun _ _ => Run.upholds_pure ()
  begin _ _ _ _ := id
  undecided _ _ := id
  add _ _ _ _ := id
  finish _ _ := Run.upholds_pure ()

theorem building_upholds (asks : policy.Upholds inv) : (building policy).Upholds inv where
  empty := Run.upholds_pure Tree.empty
  leaf w offset _ := asks.accept_bind w offset fun _ _ => Run.upholds_pure _
  begin _ _ _ _ := id
  undecided _ _ := id
  add _ _ _ _ := id
  finish _ _ := Run.upholds_pure _

theorem visiting_upholds (asks : policy.Upholds inv) {known : τ → Prop} {collect : String → τ → τ}
    (shows : ∀ v ≠ "", ∀ t, known t → known (collect v t)) :
    (visiting policy collect).Upholds fun s => inv s.1 ∧ known s.2 where
  empty := Run.upholds_pure ()
  leaf w offset _ := (asks.beside known).accept_bind w offset fun v nonempty s holds =>
    ⟨holds.1, shows v nonempty s.2 holds.2⟩
  begin _ _ _ _ := id
  undecided _ _ := id
  add _ _ _ _ := id
  finish _ _ := Run.upholds_pure ()

theorem deciding_upholds (asks : policy.Upholds inv) {lookup : Lookup σ}
    (finds : lookup.Upholds inv) : (deciding policy lookup).Upholds inv where
  empty := Run.upholds_pure true
  leaf w offset live := asks.accept_bind w offset fun v nonempty => by
    cases live with
    | true => exact Run.upholds_lift (finds v w.body nonempty w.body_ne_nil)
    | false => exact Run.upholds_pure false
  begin _ _ _ _ := id
  undecided _ _ := id
  add _ _ _ _ := id
  finish _ _ := Run.upholds_pure _

end Interpretation

/-- A lookup that writes nothing down. -/
def Lookup.Silent (lookup : Lookup (σ × τ)) : Prop :=
  ∀ value body s, (lookup value body s).2.2 = s.2

namespace Grants

variable {inv : σ × τ → Prop} {f : Lookup (σ × τ) → Run (σ × τ) Bool}

theorem decideSets_upholds (each : ∀ set, Run.Upholds inv (f (.inSet set))) :
    ∀ sets : List (List (List UInt8)), Run.Upholds inv (decideSets f sets)
  | [] => Run.upholds_pure true
  | set :: more => (each set).bind fun opens => by
    cases opens with
    | true => exact decideSets_upholds each more
    | false => exact Run.upholds_pure false

theorem decide_upholds (grants : Grants σ)
    (each : ∀ lookup : Lookup (σ × τ), lookup.Silent → Run.Upholds inv (f lookup)) :
    Run.Upholds inv (grants.beside.decide f) := by
  cases grants with
  | sets all => exact decideSets_upholds (fun set => each _ fun _ _ _ => rfl) all
  | authority ask => exact each _ fun _ _ _ => rfl

end Grants

theorem Rules.visit_upholds {rules : Rules σ} (asks : rules.policy.Upholds inv) (known : τ → Prop)
    {collect : String → τ → τ} (shows : ∀ v ≠ "", ∀ t, known t → known (collect v t))
    (label : List UInt8) :
    Run.Upholds (fun s => inv s.1 ∧ known s.2) (rules.visit label collect) :=
  (Interpretation.visiting_upholds asks shows).read rules.limit label

namespace Label

variable {x : Label σ}

theorem keep_upholds (asks : x.rules.policy.Upholds inv) (stamp : Nat) :
    Run.Upholds inv (x.keep stamp) := by
  rw [keep]
  split
  · exact Run.upholds_pure _
  · exact ((Interpretation.building_upholds asks).read x.rules.limit x.bytes).bind fun _ =>
      Run.upholds_pure _

theorem mentions_upholds (asks : x.rules.policy.Upholds inv) : Run.Upholds inv x.mentions := by
  intro s holds
  cases present : x.kept? with
  | some kept =>
    rw [mentions, present]
    exact holds
  | none =>
    rcases run : (x.rules.visit x.bytes Held.insert).on (s, Held.empty) with ⟨outcome, t, held⟩
    have visit : Run.Upholds (fun s => inv s.1 ∧ True) (x.rules.visit x.bytes Held.insert) :=
      Rules.visit_upholds asks (fun _ => True) (fun _ _ _ => id) x.bytes
    have visited := visit (s, Held.empty) ⟨holds, trivial⟩
    rw [run] at visited
    rw [mentions_of_fresh present run]
    exact visited.1

/-- Whatever a label is asked for, it puts nothing but the values of words to its policy. -/
theorem serve_upholds (asks : x.rules.policy.Upholds inv) (stamp : Nat) :
    ∀ request : Request, Run.Upholds inv (x.serve stamp request)
  | .tree => (keep_upholds asks stamp).bind fun _ => Run.upholds_pure _
  | .normalForm =>
    ((keep_upholds asks stamp).bind fun _ => Run.upholds_pure _).bind fun _ => Run.upholds_pure _
  | .mentions => (mentions_upholds asks).bind fun _ => Run.upholds_pure _
  | .keptTree => Run.upholds_pure _

end Label

end Clearance
