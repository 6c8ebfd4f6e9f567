import Clearance.Proofs.Machine
import Clearance.Proofs.Obstacles
import Clearance.Proofs.Standing

/-! What stands on the stack of a reading. The depth that a call is told is the number of the terms
that still hold a parenthesis open, and since the limit is looked at before the counter goes up, it
neither passes the limit nor wraps. So the calls at work are never more than the limit allows. -/
namespace Clearance.Machine

open Grammar

inductive Kind where
  | expression
  | term
  deriving DecidableEq

/-- A call that has not ended: the depth that it is told, and where it has begun. -/
structure Activation (label : List UInt8) where
  kind : Kind
  depth : UInt32
  opening : Cursor label

section

variable {label : List UInt8}

/-- How many of the calls are terms. -/
def terms (calls : List (Activation label)) : Nat := calls.countP (·.kind = .term)

def expressions (calls : List (Activation label)) : Nat := calls.countP (·.kind = .expression)

section

variable (depth : UInt32) (c : Cursor label) (outer : List (Activation label))

@[simp] theorem terms_term : terms (⟨.term, depth, c⟩ :: outer) = terms outer + 1 := by
  simp [terms]

@[simp] theorem terms_expression : terms (⟨.expression, depth, c⟩ :: outer) = terms outer := by
  simp [terms]

@[simp] theorem expressions_term :
    expressions (⟨.term, depth, c⟩ :: outer) = expressions outer := by
  simp [expressions]

@[simp] theorem expressions_expression :
    expressions (⟨.expression, depth, c⟩ :: outer) = expressions outer + 1 := by
  simp [expressions]

end

theorem expressions_le_cons (call : Activation label) (outer : List (Activation label)) :
    expressions outer ≤ expressions (call :: outer) :=
  (List.sublist_cons_self call outer).countP_le

/-- Outside quotes, with so many parentheses open. -/
def Outside (depth : Nat) (c : Cursor label) : Prop :=
  standing (label.take c.offset) = ⟨depth, .outside⟩

/-- In whatever call, its depth is that of the terms around it and of the label so far, and within
the limit. -/
def Nested (limit : UInt32) (calls : List (Activation label)) : Prop :=
  ∀ call outer, call :: outer <:+ calls →
    call.depth.toNat = terms outer ∧ call.depth ≤ limit ∧ Outside call.depth.toNat call.opening

variable {limit depth : UInt32} {call : Activation label} {outer : List (Activation label)}
  {c : Cursor label}

theorem Outside.advance {d : Nat} {text : List UInt8} (outside : Outside d c)
    (starts : text <+: c.rest) : standing (label.take (c.advance text.length).offset) =
      Standing.run ⟨d, .outside⟩ text := by
  rw [Cursor.take_advance starts, standing_append, outside]

theorem nested_nil : Nested limit ([] : List (Activation label)) := by
  intro call outer ends
  cases List.suffix_nil.mp ends

theorem Nested.cons (nested : Nested limit outer) (counts : call.depth.toNat = terms outer)
    (within : call.depth ≤ limit) (outside : Outside call.depth.toNat call.opening) :
    Nested limit (call :: outer) := by
  intro other rest ends
  rcases List.suffix_cons_iff.mp ends with same | ends
  · cases same
    exact ⟨counts, within, outside⟩
  · exact nested other rest ends

theorem Nested.head (nested : Nested limit (call :: outer)) :
    call.depth.toNat = terms outer ∧ call.depth ≤ limit ∧ Outside call.depth.toNat call.opening :=
  nested call outer List.suffix_rfl

theorem Nested.tail (nested : Nested limit (call :: outer)) : Nested limit outer :=
  fun other rest ends => nested other rest (ends.trans (List.suffix_cons _ _))

end

variable {σ ν γ : Type} {label : List UInt8} {limit : UInt32}

def Frame.activation? : Frame γ label → Option (Activation label)
  | .whole => none
  | .first _ depth opening => some ⟨.expression, depth, opening⟩
  | .member _ depth _ _ _ opening _ => some ⟨.expression, depth, opening⟩
  | .inner _ depth opening => some ⟨.term, depth, opening⟩

def Control.activation? : Control ν γ label → Option (Activation label)
  | .expression _ depth c => some ⟨.expression, depth, c⟩
  | .term _ depth c => some ⟨.term, depth, c⟩
  | .siblings _ depth _ _ _ opening _ => some ⟨.expression, depth, opening⟩
  | .read | .returned _ _ _ | .halted _ => none

/-- The calls that wait, the innermost first. -/
def calls (waiting : List (Frame γ label)) : List (Activation label) :=
  waiting.filterMap Frame.activation?

section

variable (live : Bool) (depth : UInt32) (op : Connective) (group : γ) (span : Span)
  (opening c : Cursor label) (waiting : List (Frame γ label))

@[simp] theorem calls_first :
    calls (.first live depth c :: waiting) = ⟨.expression, depth, c⟩ :: calls waiting := rfl

@[simp] theorem calls_member : calls (.member live depth op group span opening c :: waiting) =
    ⟨.expression, depth, opening⟩ :: calls waiting := rfl

@[simp] theorem calls_inner :
    calls (.inner live depth c :: waiting) = ⟨.term, depth, c⟩ :: calls waiting := rfl

end

/-- The calls that have not ended. -/
def Configuration.active (m : Configuration ν γ label) : List (Activation label) :=
  m.control.activation?.toList ++ calls m.waiting

/-- Where the call begins for which these wait. -/
def begins : List (Frame γ label) → Cursor label
  | .first _ _ c :: _ => c
  | .member _ _ _ _ _ _ c :: _ | .inner _ _ c :: _ => c.advance 1
  | .whole :: _ | [] => .start label

/-- What may wait for a call. -/
inductive Under (limit : UInt32) :
    Kind → UInt32 → Cursor label → List (Frame γ label) → Prop
  | whole : Under limit .expression 0 (.start label) [.whole]
  | first {live : Bool} {depth : UInt32} {c : Cursor label} {waiting : List (Frame γ label)}
    (under : Under limit .expression depth c waiting) :
    Under limit .term depth c (.first live depth c :: waiting)
  | member {live : Bool} {depth : UInt32} {op : Connective} {group : γ} {span : Span}
    {opening c : Cursor label} {waiting : List (Frame γ label)}
    (under : Under limit .expression depth opening waiting)
    (after : c.rest.length < opening.rest.length) (outside : Outside depth.toNat c)
    (here : c.peek = some op.byte) :
    Under limit .term depth (c.advance 1)
      (.member live depth op group span opening c :: waiting)
  | inner {live : Bool} {depth : UInt32} {c : Cursor label} {waiting : List (Frame γ label)}
    (under : Under limit .term depth c waiting) (opens : c.peek = some openByte)
    (room : depth < limit) :
    Under limit .expression (depth + 1) (c.advance 1) (.inner live depth c :: waiting)

namespace Under

variable {kind : Kind} {depth : UInt32} {c : Cursor label} {waiting : List (Frame γ label)}

theorem nested (under : Under limit kind depth c waiting) :
    Nested limit (⟨kind, depth, c⟩ :: calls waiting) := by
  induction under with
  | whole => exact nested_nil.cons rfl UInt32.zero_le rfl
  | first _ ih =>
    obtain ⟨counts, within, outside⟩ := ih.head
    exact ih.cons (by simpa using counts) within outside
  | member _ _ outside here ih =>
    obtain ⟨counts, within, _⟩ := ih.head
    refine ih.cons (by simpa using counts) within ?_
    exact (outside.advance (Cursor.singleton_prefix here)).trans (Standing.step_connective _)
  | inner _ opens room ih =>
    obtain ⟨counts, _, outside⟩ := ih.head
    refine ih.cons (by simpa [deeper room] using counts) ?_ ?_
    · exact UInt32.le_iff_toNat_le.mpr (deeper room ▸ UInt32.lt_iff_toNat_lt.mp room)
    · simp only [deeper room]
      exact outside.advance (Cursor.singleton_prefix opens)

/-- Each expression but the outermost stands in a term that holds a parenthesis open. -/
theorem expressions_eq (under : Under limit kind depth c waiting) :
    expressions (⟨kind, depth, c⟩ :: calls waiting) = depth.toNat + 1 := by
  induction under with
  | whole => rfl
  | first _ ih => simpa using ih
  | member _ _ _ _ ih => simpa using ih
  | inner _ _ room ih => simpa [deeper room] using ih

theorem begins_eq (under : Under limit kind depth c waiting) : begins waiting = c := by
  cases under <;> rfl

/-- A term that waits has opened a parenthesis and counted it, below the limit. -/
theorem opened (under : Under limit kind depth c waiting) {live : Bool} {d : UInt32}
    {opening : Cursor label} (member : .inner live d opening ∈ waiting) :
    opening.peek = some openByte ∧ d < limit ∧ (d + 1).toNat = d.toNat + 1 := by
  induction under with
  | whole => simp at member
  | first _ ih => exact ih (by simpa using member)
  | member _ _ _ _ ih => exact ih (by simpa using member)
  | inner _ opens room ih =>
    rcases List.mem_cons.mp member with same | member
    · cases same
      exact ⟨opens, room, deeper room⟩
    · exact ih member

theorem expressions_le (under : Under limit kind depth c waiting) :
    expressions (⟨kind, depth, c⟩ :: calls waiting) ≤ limit.toNat + 1 := by
  have bound : depth.toNat ≤ limit.toNat := UInt32.le_iff_toNat_le.mp under.nested.head.2.1
  have count := under.expressions_eq
  omega

end Under

/-- What is known wherever the machine has got to. -/
def Configuration.Ready (limit : UInt32) : Configuration ν γ label → Prop
  | ⟨.read, waiting⟩ => waiting = []
  | ⟨.expression _ depth c, waiting⟩ => Under limit .expression depth c waiting
  | ⟨.term _ depth c, waiting⟩ => Under limit .term depth c waiting
  | ⟨.siblings _ depth _ _ _ opening c, waiting⟩ =>
    Under limit .expression depth opening waiting ∧ c.rest.length < opening.rest.length ∧
      Outside depth.toNat c
  | ⟨.returned _ _ next, waiting⟩ => ∃ kind depth c, Under limit kind depth c waiting ∧
      next.rest.length < c.rest.length ∧ Outside depth.toNat next
  | ⟨.halted _, waiting⟩ => waiting = []

theorem Next.ready {m m' : Configuration ν γ label} (next : Next limit m m')
    (ready : m.Ready limit) : m'.Ready limit := by
  cases next with
  | empty | halted => exact ready
  | whole =>
    cases ready
    exact .whole
  | first => exact .first ready
  | opened opens room => exact .inner ready opens room
  | token node scanned =>
    refine ⟨_, _, _, ready, Cursor.rest_token_lt scanned, ?_⟩
    obtain ⟨w, starts, _, _, rfl⟩ := Cursor.token_sound scanned
    obtain ⟨_, _, outside⟩ := ready.nested.head
    exact (outside.advance starts).trans (Standing.run_word w)
  | more memberLive here =>
    obtain ⟨under, after, outside⟩ := ready
    exact .member under after outside here
  | finished node =>
    obtain ⟨under, after, outside⟩ := ready
    exact ⟨_, _, _, under, after, outside⟩
  | single =>
    obtain ⟨kind, depth, c, under, shorter, outside⟩ := ready
    cases under with
    | first under => exact ⟨_, _, _, under, shorter, outside⟩
  | begun op group =>
    obtain ⟨kind, depth, c, under, shorter, outside⟩ := ready
    cases under with
    | first under => exact ⟨under, shorter, outside⟩
  | added larger =>
    obtain ⟨kind, depth, c, under, shorter, outside⟩ := ready
    cases under with
    | member under after _ here =>
      have one := Cursor.rest_advance_succ here
      exact ⟨under, by omega, outside⟩
  | closed closes =>
    obtain ⟨kind, depth, c, under, shorter, outside⟩ := ready
    cases under with
    | inner under opens room =>
      have one := Cursor.rest_advance_succ opens
      have fewer := Cursor.rest_expect_le closes
      refine ⟨_, _, _, under, by omega, ?_⟩
      obtain ⟨here, rfl⟩ := Cursor.expect_eq_ok.mp closes
      rw [deeper room] at outside
      exact outside.advance (Cursor.singleton_prefix here)
  | ended =>
    obtain ⟨kind, depth, c, under, _⟩ := ready
    cases under
    rfl
  | outermost => rfl

theorem run_ready (i : Interpretation σ ν γ) (n : Nat) {m : Configuration ν γ label}
    (ready : m.Ready limit) : Run.Ends (Configuration.Ready limit) (fun _ => True)
      (run i limit n m) := by
  induction n generalizing m with
  | zero => exact Run.ends_pure ready
  | succ n ih => exact (step_next i limit m).bind fun m' next => ih (next.ready ready)

/-- A configuration that keeps to the limit: the calls that have not ended are told their depth
right and are few enough, the counter has not wrapped, and what has returned has gone on. -/
structure Configuration.Bounded (limit : UInt32) (m : Configuration ν γ label) : Prop where
  nested : Nested limit m.active
  few : expressions m.active ≤ limit.toNat + 1
  opened : ∀ live depth opening, .inner live depth opening ∈ m.waiting →
    opening.peek = some openByte ∧ depth < limit ∧ (depth + 1).toNat = depth.toNat + 1
  expression : ∀ live depth c, m.control = .expression live depth c → begins m.waiting = c
  term : ∀ live depth c, m.control = .term live depth c → begins m.waiting = c
  /-- A call that returns has taken a byte. -/
  taken : ∀ node span next, m.control = .returned node span next →
    next.rest.length + 1 ≤ (begins m.waiting).rest.length
  /-- A round of the loop, which has begun at `c`, has taken two. -/
  round : ∀ node span next live depth op group covered opening c outer,
    m = ⟨.returned node span next, .member live depth op group covered opening c :: outer⟩ →
      next.rest.length + 2 ≤ c.rest.length

theorem Configuration.Ready.bounded {m : Configuration ν γ label} (ready : m.Ready limit) :
    m.Bounded limit := by
  obtain ⟨control, waiting⟩ := m
  cases control with
  | read =>
    cases ready
    exact ⟨nested_nil, Nat.zero_le _, nofun, nofun, nofun, nofun, nofun⟩
  | expression live depth c =>
    have under : Under limit .expression depth c waiting := ready
    refine ⟨under.nested, under.expressions_le, fun _ _ _ => under.opened, ?_, nofun, nofun, nofun⟩
    rintro _ _ _ ⟨⟩
    exact under.begins_eq
  | term live depth c =>
    have under : Under limit .term depth c waiting := ready
    refine ⟨under.nested, under.expressions_le, fun _ _ _ => under.opened, nofun, ?_, nofun, nofun⟩
    rintro _ _ _ ⟨⟩
    exact under.begins_eq
  | siblings live depth op group span opening c =>
    have under : Under limit .expression depth opening waiting := ready.1
    exact ⟨under.nested, under.expressions_le, fun _ _ _ => under.opened, nofun, nofun, nofun,
      nofun⟩
  | returned node span next =>
    obtain ⟨kind, depth, c, under, shorter, _⟩ := ready
    refine ⟨under.nested.tail, ?_, fun _ _ _ => under.opened, nofun, nofun, ?_, ?_⟩
    · exact Nat.le_trans (expressions_le_cons _ _) under.expressions_le
    · rintro _ _ _ ⟨⟩
      rw [under.begins_eq]
      exact shorter
    · rintro _ _ _ _ _ _ _ _ _ _ _ ⟨⟩
      cases under with
      | member _ _ _ here =>
        have one := Cursor.rest_advance_succ here
        omega
  | halted node =>
    cases ready
    exact ⟨nested_nil, Nat.zero_le _, nofun, nofun, nofun, nofun, nofun⟩

/-- Whatever is read, by whatever limit and interpretation: the reading comes to an end, and every
configuration on the way keeps to the limit. -/
theorem reading_bounded (i : Interpretation σ ν γ) (limit : UInt32) (label : List UInt8) :
    (∀ more, run i limit (6 * label.length + 7 + more) (initial ν γ label) =
      i.read limit label >>= fun node => pure ⟨.halted node, []⟩) ∧
    ∀ n, Run.Ends (Configuration.Bounded limit) (fun _ => True)
      (run i limit n (initial ν γ label)) := by
  have ready : (initial ν γ label).Ready limit := rfl
  exact ⟨run_initial i limit label,
    fun n => Run.Ends.imp (run_ready i n ready) fun _ reached => reached.bounded⟩

/-- In the label `(A)` two expressions are at work at once, as many as the limit 1 allows. -/
example :
    let i : Interpretation Unit Unit Unit :=
      ⟨pure (), fun _ _ => pure (), fun _ _ _ => pure (), fun _ => pure true,
        fun _ _ _ => pure (), fun _ _ => pure ()⟩
    ((run i 1 3 (initial Unit Unit [0x28, 0x41, 0x29])).on ()).1.toOption.map
      (fun m => expressions m.active) = some 2 := by
  rfl

end Clearance.Machine
